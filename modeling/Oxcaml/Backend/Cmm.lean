/-
Oxcaml.Backend.Cmm — the expressions of `backend/cmm.ml`.

Expressions keep every constructor of the source. Debug information that is
attached to nodes is left out: no function here reads it, and the comparator
of the peephole engine ignores it. The literals that no integer helper looks
into (floats, vectors, masks) are gathered in one type, by their bits. An
operation that no helper distinguishes from the others (calls, stores,
allocations, raises, …) is `other`, over a parameter `O`.

OCaml's `int` has 63 bits and `nativeint` has 64; `arch_bits` is 64.

`weight` is the measure under which the helpers terminate. It does not see
the constructs that only concern the debugger, because the peephole engine
moves those around and may repeat them.
-/
import Mathlib.Logic.Basic

set_option linter.all false

namespace Oxcaml.Backend

/-! ## §1 Data -/

/-- OCaml's `int`. -/
abbrev OcamlInt := BitVec 63

/-- OCaml's `nativeint`, and a machine word. -/
abbrev Nativeint := BitVec 64

/-- The stamp of a `Backend_var.t`. -/
abbrev BackendVar := Nat

abbrev StaticLabel := Nat

inductive MachtypeComponent where
  | val
  | addr
  | int
  | float
  | vec128
  | vec256
  | vec512
  | mask
  | float32
  | valx2
  deriving DecidableEq

abbrev Machtype := List MachtypeComponent

inductive IntegerComparison where
  | ceq
  | cne
  | clt
  | cgt
  | cle
  | cge
  | cult
  | cugt
  | cule
  | cuge
  deriving DecidableEq

inductive FloatComparison where
  | cfeq
  | cfneq
  | cflt
  | cfnlt
  | cfgt
  | cfngt
  | cfle
  | cfnle
  | cfge
  | cfnge
  deriving DecidableEq

inductive FloatWidth where
  | float64
  | float32
  deriving DecidableEq

inductive MemoryChunk where
  | byteUnsigned
  | byteSigned
  | sixteenUnsigned
  | sixteenSigned
  | thirtytwoUnsigned
  | thirtytwoSigned
  | wordInt
  | wordMask
  | wordVal
  | single (reg : FloatWidth)
  | double
  | onetwentyeightUnaligned
  | onetwentyeightAligned
  | twofiftysixUnaligned
  | twofiftysixAligned
  | fivetwelveUnaligned
  | fivetwelveAligned
  deriving DecidableEq

structure Symbol where
  symName : String
  symGlobal : Bool
  deriving DecidableEq

/-- `Cconst_float32`, `Cconst_float`, `Cconst_vec128`, … by their bits. -/
inductive Literal where
  | float32 (bits : BitVec 64)
  | float (bits : BitVec 64)
  | vec128 (bits : BitVec 128)
  | vec256 (bits : BitVec 256)
  | vec512 (bits : BitVec 512)
  | mask (bits : BitVec 64)
  deriving DecidableEq

inductive PhantomDefiningExpr where
  | constInt (n : Nativeint)
  | constSymbol (sym : Symbol)
  | var (v : BackendVar)
  | offsetVar (v : BackendVar) (offsetInWords : OcamlInt)
  | readField (v : BackendVar) (field : OcamlInt)
  | readSymbolField (sym : Symbol) (field : OcamlInt)
  | block (tag : OcamlInt) (fields : List BackendVar)
  deriving DecidableEq

inductive ExitLabel where
  | returnLbl
  | lbl (l : StaticLabel)
  deriving DecidableEq

inductive TrapAction where
  | push (l : StaticLabel)
  | pop (l : StaticLabel)
  deriving DecidableEq

inductive CcatchFlag where
  | normal
  | recursive
  | exnHandler
  deriving DecidableEq

inductive Operation (O : Type) where
  | cload (memoryChunk : MemoryChunk) (mutability isAtomic : Bool)
  | caddi
  | csubi
  | cmuli
  | cmulhi (signed : Bool)
  | cdivi (signed : Bool)
  | cmodi (signed : Bool)
  | cand
  | cor
  | cxor
  | clsl
  | clsr
  | casr
  | ccmpi (cmp : IntegerComparison)
  | ccmpf (width : FloatWidth) (cmp : FloatComparison)
  | other (op : O)
  deriving DecidableEq

structure StaticHandler (E : Type) where
  label : StaticLabel
  params : List (BackendVar × Machtype)
  body : E
  isCold : Bool

inductive Expression (O : Type) where
  | cconstInt (n : OcamlInt)
  | cconstNatint (n : Nativeint)
  | cconst (l : Literal)
  | cconstSymbol (sym : Symbol)
  | cvar (v : BackendVar)
  | clet (v : BackendVar) (exp body : Expression O)
  | cphantomLet (v : BackendVar) (exp : Option PhantomDefiningExpr) (body : Expression O)
  | cnameForDebugger (v : BackendVar) (body : Expression O)
  | ctuple (exprs : List (Expression O))
  | cop (op : Operation O) (args : List (Expression O))
  | csequence (e1 e2 : Expression O)
  | cifthenelse (cond ifso ifnot : Expression O)
  | cswitch (scrutinee : Expression O) (cases : List Nat) (actions : List (Expression O))
  | ccatch (flag : CcatchFlag) (handlers : List (StaticHandler (Expression O)))
      (body : Expression O)
  | cexit (label : ExitLabel) (args : List (Expression O)) (traps : List TrapAction)
  | cinvalid (message : String) (symbol : Symbol)

namespace Expression

variable {O : Type}

/-! ## §2 Measures -/

mutual

def weight : Expression O → Nat
  | cconstInt _ => 1
  | cconstNatint _ => 1
  | cconst _ => 1
  | cconstSymbol _ => 1
  | cvar _ => 1
  | clet _ exp body => exp.weight + body.weight + 1
  | cphantomLet _ _ body => body.weight
  | cnameForDebugger _ body => body.weight
  | ctuple exprs => weightList exprs + 1
  | cop _ args => weightList args + 1
  | csequence e1 e2 => e1.weight + e2.weight + 1
  | cifthenelse cond ifso ifnot => cond.weight + ifso.weight + ifnot.weight + 1
  | cswitch scrutinee _ actions => scrutinee.weight + weightList actions + 1
  | ccatch _ handlers body => weightHandlers handlers + body.weight + 1
  | cexit _ args _ => weightList args + 1
  | cinvalid _ _ => 1

def weightList : List (Expression O) → Nat
  | [] => 0
  | e :: es => e.weight + weightList es

def weightHandlers : List (StaticHandler (Expression O)) → Nat
  | [] => 0
  | ⟨_, _, body, _⟩ :: hs => body.weight + weightHandlers hs

end

attribute [local grind =] weight weightList weightHandlers

theorem one_le_weight : (e : Expression O) → 1 ≤ e.weight
  | cconstInt _ | cconstNatint _ | cconst _ | cconstSymbol _ | cvar _ | cinvalid _ _ => by
    simp [weight]
  | clet .. | ctuple .. | cop .. | csequence .. | cifthenelse .. | cswitch .. | ccatch ..
  | cexit .. => by simp only [weight]; omega
  | cphantomLet _ _ body => by exact body.one_le_weight
  | cnameForDebugger _ body => by exact body.one_le_weight

mutual

def containsDebugOnlyConstructs : Expression O → Bool
  | cphantomLet .. => true
  | cnameForDebugger .. => true
  | cconstInt _ => false
  | cconstNatint _ => false
  | cconst _ => false
  | cconstSymbol _ => false
  | cvar _ => false
  | clet _ exp body => exp.containsDebugOnlyConstructs || body.containsDebugOnlyConstructs
  | ctuple exprs => anyContainsDebugOnlyConstructs exprs
  | cop _ args => anyContainsDebugOnlyConstructs args
  | csequence e1 e2 => e1.containsDebugOnlyConstructs || e2.containsDebugOnlyConstructs
  | cifthenelse cond ifso ifnot =>
    cond.containsDebugOnlyConstructs || ifso.containsDebugOnlyConstructs ||
      ifnot.containsDebugOnlyConstructs
  | cswitch scrutinee _ actions =>
    scrutinee.containsDebugOnlyConstructs || anyContainsDebugOnlyConstructs actions
  | ccatch _ handlers body =>
    handlersContainDebugOnlyConstructs handlers || body.containsDebugOnlyConstructs
  | cexit _ args _ => anyContainsDebugOnlyConstructs args
  | cinvalid _ _ => false

def anyContainsDebugOnlyConstructs : List (Expression O) → Bool
  | [] => false
  | e :: es => e.containsDebugOnlyConstructs || anyContainsDebugOnlyConstructs es

def handlersContainDebugOnlyConstructs : List (StaticHandler (Expression O)) → Bool
  | [] => false
  | ⟨_, _, body, _⟩ :: hs =>
    body.containsDebugOnlyConstructs || handlersContainDebugOnlyConstructs hs

end

/-! ## §3 Tails -/

variable {ε : Type}

mutual

/-- `map_tail`. The function may use that a tail is no heavier than the whole. -/
def mapTail (e : Expression O)
    (f : (c : Expression O) → c.weight ≤ e.weight → Except ε (Expression O)) :
    Except ε (Expression O) :=
  match e with
  | cconstInt n => f (cconstInt n) (Nat.le_refl _)
  | cconstNatint n => f (cconstNatint n) (Nat.le_refl _)
  | cconst l => f (cconst l) (Nat.le_refl _)
  | cconstSymbol sym => f (cconstSymbol sym) (Nat.le_refl _)
  | cvar v => f (cvar v) (Nat.le_refl _)
  | ctuple exprs => f (ctuple exprs) (Nat.le_refl _)
  | cop op args => f (cop op args) (Nat.le_refl _)
  | cexit label args traps => pure (cexit label args traps)
  | cinvalid message symbol => pure (cinvalid message symbol)
  | clet v exp body => do
    let body ← mapTail body fun c h => f c (by simp only [weight]; omega)
    pure (clet v exp body)
  | cphantomLet v exp body => do
    let body ← mapTail body fun c h => f c (by simp only [weight]; omega)
    pure (cphantomLet v exp body)
  | cnameForDebugger v body => do
    let body ← mapTail body fun c h => f c (by simp only [weight]; omega)
    pure (cnameForDebugger v body)
  | csequence e1 e2 => do
    let e2 ← mapTail e2 fun c h => f c (by simp only [weight]; omega)
    pure (csequence e1 e2)
  | cifthenelse cond ifso ifnot => do
    let ifso ← mapTail ifso fun c h => f c (by simp only [weight]; omega)
    let ifnot ← mapTail ifnot fun c h => f c (by simp only [weight]; omega)
    pure (cifthenelse cond ifso ifnot)
  | cswitch scrutinee cases actions => do
    let actions ← mapTailList actions fun c h => f c (by simp only [weight]; omega)
    pure (cswitch scrutinee cases actions)
  | ccatch flag handlers body => do
    let handlers ← mapTailHandlers handlers fun c h => f c (by simp only [weight]; omega)
    let body ← mapTail body fun c h => f c (by simp only [weight]; omega)
    pure (ccatch flag handlers body)

def mapTailList (es : List (Expression O))
    (f : (c : Expression O) → c.weight ≤ weightList es → Except ε (Expression O)) :
    Except ε (List (Expression O)) :=
  match es with
  | [] => pure []
  | e :: es => do
    let e ← mapTail e fun c h => f c (by simp only [weightList]; omega)
    let es ← mapTailList es fun c h => f c (by simp only [weightList]; omega)
    pure (e :: es)

def mapTailHandlers (hs : List (StaticHandler (Expression O)))
    (f : (c : Expression O) → c.weight ≤ weightHandlers hs → Except ε (Expression O)) :
    Except ε (List (StaticHandler (Expression O))) :=
  match hs with
  | [] => pure []
  | ⟨label, params, body, isCold⟩ :: hs => do
    let body ← mapTail body fun c h => f c (by simp only [weightHandlers]; omega)
    let hs ← mapTailHandlers hs fun c h => f c (by simp only [weightHandlers]; omega)
    pure (⟨label, params, body, isCold⟩ :: hs)

end

end Expression

end Oxcaml.Backend
