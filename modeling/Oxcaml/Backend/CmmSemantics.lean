/-
Oxcaml.Backend.CmmSemantics — evaluation of Cmm expressions.

An expression is evaluated from right to left over an environment and a
machine state. It ends with a value or leaves through an exit label; raising
is an operation that exits to the handler the machine state knows. A machine
says what literals, loads, calls and the other operations do; integer
arithmetic is that of 64-bit words. A shift by 64 or more is undefined, so the
machine may do anything with the words there.

`run` has fuel for recursive handlers; `Evaluates` is its limit, and §3 gives
its equations. §4 says which expressions have no effects or no coeffects,
after the machine's classification of its operations.
-/
import Oxcaml.Backend.Cmm

set_option linter.all false

namespace Oxcaml.Backend

open Option (bind_eq_some_iff map_eq_some_iff)
open Bool (and_eq_true)

open Expression

/-! ## §1 Machines -/

inductive Value (X : Type) where
  | word (w : Nativeint)
  | wide (x : X)

inductive Outcome (X : Type) where
  | value (v : Value X)
  | exit (label : ExitLabel) (args : List (Value X))

/-- What the target does outside of integer arithmetic, over machine states `σ`
and values `X` that are not words. -/
structure Machine (O X σ : Type) where
  literal : Literal → Value X
  symbol : Symbol → Value X
  tuple : List (Value X) → Value X
  readBits : (k : Nat) → (mutability isAtomic : Bool) → List (Value X) → σ → Option (BitVec k)
  read : MemoryChunk → (mutability isAtomic : Bool) → List (Value X) → σ → Option (Value X)
  floatCompare : FloatWidth → FloatComparison → List (Value X) → Option Bool
  undefinedShift : Operation O → Nativeint → Nativeint → Nativeint
  operation : O → List (Value X) → σ → Option (Outcome X × σ)
  traps : List TrapAction → σ → σ
  effects : O → Bool
  coeffects : O → Bool
  no_effects : ∀ {op args s o s'}, effects op = false → operation op args s = some (o, s') →
    s' = s ∧ ∃ v, o = .value v
  no_coeffects : ∀ {op args s o s'}, effects op = false → coeffects op = false →
    operation op args s = some (o, s') → ∀ t, operation op args t = some (o, t)

def IntegerComparison.holds : IntegerComparison → Nativeint → Nativeint → Bool
  | ceq, a, b => a == b
  | cne, a, b => a != b
  | clt, a, b => a.slt b
  | cgt, a, b => b.slt a
  | cle, a, b => a.sle b
  | cge, a, b => b.sle a
  | cult, a, b => a.ult b
  | cugt, a, b => b.ult a
  | cule, a, b => a.ule b
  | cuge, a, b => b.ule a

/-- The high word of a product. -/
def mulhi (signed : Bool) (a b : Nativeint) : Nativeint :=
  if signed then ((a.signExtend 128 * b.signExtend 128) >>> 64).setWidth 64
  else ((a.setWidth 128 * b.setWidth 128) >>> 64).setWidth 64

variable {O X σ : Type}

namespace Machine

variable (M : Machine O X σ)

/-- A shift is defined for amounts below 64. -/
def shift (op : Operation O) (f : Nativeint → Nat → Nativeint) (a b : Nativeint) : Nativeint :=
  if b.toNat < 64 then f a b.toNat else M.undefinedShift op a b

/-- Operations on two words. -/
def word2 : Operation O → Nativeint → Nativeint → Option Nativeint
  | .caddi, a, b => some (a + b)
  | .csubi, a, b => some (a - b)
  | .cmuli, a, b => some (a * b)
  | .cmulhi signed, a, b => some (mulhi signed a b)
  | .cdivi true, a, b => if b = 0 then none else some (a.sdiv b)
  | .cdivi false, a, b => if b = 0 then none else some (a.udiv b)
  | .cmodi true, a, b => if b = 0 then none else some (a.srem b)
  | .cmodi false, a, b => if b = 0 then none else some (a.umod b)
  | .cand, a, b => some (a &&& b)
  | .cor, a, b => some (a ||| b)
  | .cxor, a, b => some (a ^^^ b)
  | .clsl, a, b => some (M.shift .clsl (· <<< ·) a b)
  | .clsr, a, b => some (M.shift .clsr (· >>> ·) a b)
  | .casr, a, b => some (M.shift .casr BitVec.sshiftRight a b)
  | .ccmpi cmp, a, b => some (if cmp.holds a b then 1 else 0)
  | _, _, _ => none

/-- A narrow load extends the bits that it reads. -/
def load (memoryChunk : MemoryChunk) (mutability isAtomic : Bool) (args : List (Value X)) (s : σ) :
    Option (Value X) :=
  let extend (k : Nat) (f : BitVec k → Nativeint) :=
    (M.readBits k mutability isAtomic args s).map fun b => .word (f b)
  match memoryChunk with
  | .byteUnsigned => extend 8 (BitVec.setWidth 64)
  | .byteSigned => extend 8 (BitVec.signExtend 64)
  | .sixteenUnsigned => extend 16 (BitVec.setWidth 64)
  | .sixteenSigned => extend 16 (BitVec.signExtend 64)
  | .thirtytwoUnsigned => extend 32 (BitVec.setWidth 64)
  | .thirtytwoSigned => extend 32 (BitVec.signExtend 64)
  | chunk => M.read chunk mutability isAtomic args s

def apply (op : Operation O) (args : List (Value X)) (s : σ) : Option (Outcome X × σ) :=
  match op with
  | .cload memoryChunk mutability isAtomic =>
    (M.load memoryChunk mutability isAtomic args s).map fun v => (.value v, s)
  | .ccmpf width cmp =>
    (M.floatCompare width cmp args).map fun b => (.value (.word (if b then 1 else 0)), s)
  | .other op => M.operation op args s
  | op =>
    match args with
    | [.word a, .word b] => (M.word2 op a b).map fun w => (.value (.word w), s)
    | _ => none

attribute [local grind =] word2 load apply

/-! ## §2 Evaluation -/

abbrev Bindings (X : Type) := BackendVar → Option (Value X)

def Bindings.set (env : Bindings X) (v : BackendVar) (x : Value X) : Bindings X :=
  fun w => if w = v then some x else env w

def bindParams (env : Bindings X) :
    List (BackendVar × Machtype) → List (Value X) → Option (Bindings X)
  | [], [] => some env
  | (v, _) :: params, x :: args => bindParams (Bindings.set env v x) params args
  | _, _ => none

/-- Arguments are evaluated from right to left, up to the first exit. -/
def evalArgs (ev : Expression O → σ → Option (Outcome X × σ)) :
    List (Expression O) → σ → Option (Except (ExitLabel × List (Value X)) (List (Value X)) × σ)
  | [], s => some (.ok [], s)
  | e :: es, s =>
    match evalArgs ev es s with
    | some (.ok vs, s) =>
      match ev e s with
      | some (.value v, s) => some (.ok (v :: vs), s)
      | some (.exit l args, s) => some (.error (l, args), s)
      | none => none
    | r => r

mutual

def run : Nat → Expression O → Bindings X → σ → Option (Outcome X × σ)
  | 0, _, _, _ => none
  | _ + 1, cconstInt n, _, s => some (.value (.word (n.signExtend 64)), s)
  | _ + 1, cconstNatint n, _, s => some (.value (.word n), s)
  | _ + 1, cconst l, _, s => some (.value (M.literal l), s)
  | _ + 1, cconstSymbol sym, _, s => some (.value (M.symbol sym), s)
  | _ + 1, cvar v, env, s => (env v).map fun x => (.value x, s)
  | fuel + 1, clet v exp body, env, s =>
    match run fuel exp env s with
    | some (.value x, s) => run fuel body (Bindings.set env v x) s
    | r => r
  | fuel + 1, cphantomLet _ _ body, env, s => run fuel body env s
  | fuel + 1, cnameForDebugger _ body, env, s => run fuel body env s
  | fuel + 1, ctuple exprs, env, s =>
    match evalArgs (fun e s => run fuel e env s) exprs s with
    | some (.ok vs, s) => some (.value (M.tuple vs), s)
    | some (.error (l, args), s) => some (.exit l args, s)
    | none => none
  | fuel + 1, cop op args, env, s =>
    match evalArgs (fun e s => run fuel e env s) args s with
    | some (.ok vs, s) => M.apply op vs s
    | some (.error (l, args), s) => some (.exit l args, s)
    | none => none
  | fuel + 1, csequence e1 e2, env, s =>
    match run fuel e1 env s with
    | some (.value _, s) => run fuel e2 env s
    | r => r
  | fuel + 1, cifthenelse cond ifso ifnot, env, s =>
    match run fuel cond env s with
    | some (.value (.word w), s) => if w ≠ 0 then run fuel ifso env s else run fuel ifnot env s
    | some (.value (.wide _), _) => none
    | r => r
  | fuel + 1, cswitch scrutinee cases actions, env, s =>
    match run fuel scrutinee env s with
    | some (.value (.word w), s) =>
      match cases[w.toNat]? with
      | some i =>
        match actions[i]? with
        | some action => run fuel action env s
        | none => none
      | none => none
    | some (.value (.wide _), _) => none
    | r => r
  | fuel + 1, ccatch flag handlers body, env, s =>
    match run fuel body env s with
    | some (.exit (.lbl l) args, s) => handle fuel flag handlers env l args s
    | r => r
  | fuel + 1, cexit label args traps, env, s =>
    match evalArgs (fun e s => run fuel e env s) args s with
    | some (.ok vs, s) => some (.exit label vs, M.traps traps s)
    | some (.error (l, args), s) => some (.exit l args, s)
    | none => none
  | _ + 1, cinvalid _ _, _, _ => none

/-- An exit to `l` inside of the body or of a handler of a `Ccatch`. Only
recursive handlers may exit to one another. -/
def handle : Nat → CcatchFlag → List (StaticHandler (Expression O)) → Bindings X → StaticLabel →
    List (Value X) → σ → Option (Outcome X × σ)
  | 0, _, _, _, _, _, _ => none
  | fuel + 1, flag, handlers, env, l, args, s =>
    match handlers.find? fun h => h.label = l with
    | none => some (.exit (.lbl l) args, s)
    | some h =>
      match bindParams env h.params args with
      | none => none
      | some env' =>
        match run fuel h.body env' s with
        | some (.exit (.lbl l) args, s) =>
          if flag = .recursive then handle fuel flag handlers env l args s
          else some (.exit (.lbl l) args, s)
        | r => r

end

/-! ## §3 Equations -/

-- The equations of these are made here, once, and not by the first of the proofs below.
attribute [local grind =] run handle evalArgs

variable {s s' : σ} {r : Except (ExitLabel × List (Value X)) (List (Value X)) × σ}

/-- More results from the arguments, more results from all of them. -/
theorem evalArgs_mono {ev ev' : Expression O → σ → Option (Outcome X × σ)}
    (h : ∀ e s r, ev e s = some r → ev' e s = some r) (es : List (Expression O))
    (hr : evalArgs ev es s = some r) : evalArgs ev' es s = some r := by
  induction es generalizing s r with
  | nil => exact hr
  | cons e es ih =>
    rw [evalArgs] at hr ⊢
    cases hes : evalArgs ev es s with
    | none => rw [hes] at hr; cases hr
    | some p =>
      obtain ⟨vs, s₁⟩ := p
      rw [hes] at hr
      rw [ih hes]
      cases vs with
      | error x => exact hr
      | ok vs =>
        dsimp only at hr ⊢
        cases he : ev e s₁ with
        | none => rw [he] at hr; cases hr
        | some p => rw [he] at hr; rw [h e s₁ p he]; exact hr

theorem run_succ (fuel : Nat) :
    (∀ e env s r, M.run fuel e env s = some r → M.run (fuel + 1) e env s = some r) ∧
      ∀ flag handlers env l args s r, M.handle fuel flag handlers env l args s = some r →
        M.handle (fuel + 1) flag handlers env l args s = some r := by
  induction fuel with
  | zero =>
    refine ⟨fun _ _ _ _ h => ?_, fun _ _ _ _ _ _ _ h => ?_⟩
    · cases h
    · cases h
  | succ fuel ih =>
    obtain ⟨ihrun, ihhandle⟩ := ih
    have ihargs : ∀ es env s r, evalArgs (fun e s => M.run fuel e env s) es s = some r →
        evalArgs (fun e s => M.run (fuel + 1) e env s) es s = some r :=
      fun es env s r h => evalArgs_mono (fun e s r hr => ihrun e env s r hr) es h
    refine ⟨fun e env s r h => ?_, fun flag handlers env l args s r h => ?_⟩
    · cases e with
      | cconstInt n | cconstNatint n | cconst l | cconstSymbol sym | cvar v
      | cinvalid m sym => exact h
      | cphantomLet v d body | cnameForDebugger v body => exact ihrun _ _ _ _ h
      | clet v exp body =>
        rw [run] at h ⊢
        cases hexp : M.run fuel exp env s with
        | none => rw [hexp] at h; cases h
        | some p =>
          rw [hexp] at h
          rw [ihrun _ _ _ _ hexp]
          obtain ⟨o, s₁⟩ := p
          cases o with
          | value x => exact ihrun _ _ _ _ h
          | exit l args => exact h
      | csequence e1 e2 =>
        rw [run] at h ⊢
        cases he1 : M.run fuel e1 env s with
        | none => rw [he1] at h; cases h
        | some p =>
          rw [he1] at h
          rw [ihrun _ _ _ _ he1]
          obtain ⟨o, s₁⟩ := p
          cases o with
          | value x => exact ihrun _ _ _ _ h
          | exit l args => exact h
      | ctuple exprs =>
        rw [run] at h ⊢
        cases hargs : evalArgs (fun e s => M.run fuel e env s) exprs s with
        | none => rw [hargs] at h; cases h
        | some p => rw [hargs] at h; rw [ihargs _ _ _ _ hargs]; exact h
      | cop op args =>
        rw [run] at h ⊢
        cases hargs : evalArgs (fun e s => M.run fuel e env s) args s with
        | none => rw [hargs] at h; cases h
        | some p => rw [hargs] at h; rw [ihargs _ _ _ _ hargs]; exact h
      | cexit label args traps =>
        rw [run] at h ⊢
        cases hargs : evalArgs (fun e s => M.run fuel e env s) args s with
        | none => rw [hargs] at h; cases h
        | some p => rw [hargs] at h; rw [ihargs _ _ _ _ hargs]; exact h
      | cifthenelse cond ifso ifnot =>
        rw [run] at h ⊢
        cases hc : M.run fuel cond env s with
        | none => rw [hc] at h; cases h
        | some p =>
          rw [hc] at h
          rw [ihrun _ _ _ _ hc]
          obtain ⟨o, s₁⟩ := p
          rcases o with (w | x) | ⟨l, args⟩
          · dsimp only at h ⊢
            split at h
            · exact (if_pos ‹_›).trans (ihrun _ _ _ _ h)
            · exact (if_neg ‹_›).trans (ihrun _ _ _ _ h)
          · cases h
          · exact h
      | cswitch scrutinee cases' actions =>
        rw [run] at h ⊢
        cases hc : M.run fuel scrutinee env s with
        | none => rw [hc] at h; cases h
        | some p =>
          rw [hc] at h
          rw [ihrun _ _ _ _ hc]
          obtain ⟨o, s₁⟩ := p
          rcases o with (w | x) | ⟨l, args⟩
          · dsimp only at h ⊢
            cases hi : cases'[w.toNat]? with
            | none => rw [hi] at h; cases h
            | some i =>
              rw [hi] at h
              dsimp only at h ⊢
              cases ha : actions[i]? with
              | none => rw [ha] at h; cases h
              | some action => rw [ha] at h; exact ihrun _ _ _ _ h
          · cases h
          · exact h
      | ccatch flag handlers body =>
        rw [run] at h ⊢
        cases hb : M.run fuel body env s with
        | none => rw [hb] at h; cases h
        | some p =>
          rw [hb] at h
          rw [ihrun _ _ _ _ hb]
          obtain ⟨o, s₁⟩ := p
          rcases o with v | ⟨_ | l, args⟩
          · exact h
          · exact h
          · exact ihhandle _ _ _ _ _ _ _ h
    rw [handle] at h ⊢
    cases hfind : handlers.find? fun h => h.label = l with
    | none => rw [hfind] at h; exact h
    | some hd =>
      rw [hfind] at h
      dsimp only at h ⊢
      cases hbind : bindParams env hd.params args with
      | none => rw [hbind] at h; cases h
      | some env' =>
        rw [hbind] at h
        dsimp only at h ⊢
        cases hb : M.run fuel hd.body env' s with
        | none => rw [hb] at h; cases h
        | some p =>
          rw [hb] at h
          rw [ihrun _ _ _ _ hb]
          obtain ⟨o, s₁⟩ := p
          rcases o with v | ⟨_ | l, args⟩
          · exact h
          · exact h
          dsimp only at h ⊢
          split at h
          · exact (if_pos ‹_›).trans (ihhandle _ _ _ _ _ _ _ h)
          · exact (if_neg ‹_›).trans h

variable {fuel fuel' : Nat} {e body : Expression O} {env : Bindings X}

theorem run_mono (hle : fuel ≤ fuel') {r : Outcome X × σ} (h : M.run fuel e env s = some r) :
    M.run fuel' e env s = some r := by
  induction hle with
  | refl => exact h
  | step _ ih => exact (M.run_succ _).1 _ _ _ _ ih

variable {args : List (Value X)} {flag : CcatchFlag}

variable {handlers : List (StaticHandler (Expression O))}

theorem handle_mono (hle : fuel ≤ fuel') {l : StaticLabel} {r : Outcome X × σ}
    (h : M.handle fuel flag handlers env l args s = some r) :
    M.handle fuel' flag handlers env l args s = some r := by
  induction hle with
  | refl => exact h
  | step _ ih => exact (M.run_succ _).2 _ _ _ _ _ _ _ ih

/-- `e` ends with `o`, in state `s'`. -/
def Evaluates (e : Expression O) (env : Bindings X) (s : σ) (o : Outcome X) (s' : σ) : Prop :=
  ∃ fuel, M.run fuel e env s = some (o, s')

variable {M} {o : Outcome X}

theorem Evaluates.unique {o' : Outcome X}
    {s₁ s₂ : σ} (h : M.Evaluates e env s o s₁) (h' : M.Evaluates e env s o' s₂) :
    o = o' ∧ s₁ = s₂ := by
  obtain ⟨fuel, h⟩ := h
  obtain ⟨fuel', h'⟩ := h'
  have h := M.run_mono (Nat.le_max_left fuel fuel') h
  rw [M.run_mono (Nat.le_max_right fuel fuel') h'] at h
  cases h
  exact ⟨rfl, rfl⟩

section Equations

variable {env : Bindings X} {s s' : σ} {o : Outcome X}

theorem evaluates_cconstInt {n : OcamlInt} :
    M.Evaluates (cconstInt n) env s o s' ↔ o = .value (.word (n.signExtend 64)) ∧ s' = s := by
  constructor
  · rintro ⟨_ | fuel, h⟩
    · cases h
    · cases h; exact ⟨rfl, rfl⟩
  · rintro ⟨rfl, rfl⟩; exact ⟨1, rfl⟩

theorem evaluates_cconstNatint {n : Nativeint} :
    M.Evaluates (cconstNatint n) env s o s' ↔ o = .value (.word n) ∧ s' = s := by
  constructor
  · rintro ⟨_ | fuel, h⟩
    · cases h
    · cases h; exact ⟨rfl, rfl⟩
  · rintro ⟨rfl, rfl⟩; exact ⟨1, rfl⟩

variable {v : BackendVar}

theorem evaluates_cvar :
    M.Evaluates (cvar v) env s o s' ↔ (∃ x, env v = some x ∧ o = .value x) ∧ s' = s := by
  constructor
  · rintro ⟨_ | fuel, h⟩
    · cases h
    rw [run] at h
    cases hv : env v with
    | none => rw [hv] at h; cases h
    | some x => rw [hv] at h; cases h; exact ⟨⟨x, rfl, rfl⟩, rfl⟩
  · rintro ⟨⟨x, hv, rfl⟩, rfl⟩; exact ⟨1, by rw [run, hv]; rfl⟩

theorem evaluates_cphantomLet {d : Option PhantomDefiningExpr} :
    M.Evaluates (cphantomLet v d body) env s o s' ↔ M.Evaluates body env s o s' := by
  constructor
  · rintro ⟨_ | fuel, h⟩
    · cases h
    · exact ⟨fuel, h⟩
  · rintro ⟨fuel, h⟩; exact ⟨fuel + 1, h⟩

theorem evaluates_cnameForDebugger :
    M.Evaluates (cnameForDebugger v body) env s o s' ↔ M.Evaluates body env s o s' := by
  constructor
  · rintro ⟨_ | fuel, h⟩
    · cases h
    · exact ⟨fuel, h⟩
  · rintro ⟨fuel, h⟩; exact ⟨fuel + 1, h⟩

/-- An expression that evaluates `e`, and goes on with its value. -/
theorem evaluates_of_run {e' : Expression O} {k : Nat → Value X → σ → Option (Outcome X × σ)}
    (hrun : ∀ fuel s, M.run (fuel + 1) e' env s =
      match M.run fuel e env s with
      | some (.value x, s₁) => k fuel x s₁
      | r => r)
    (hmono : ∀ {fuel fuel'}, fuel ≤ fuel' → ∀ {x s r}, k fuel x s = some r → k fuel' x s = some r) :
    M.Evaluates e' env s o s' ↔
      (∃ x s₁, M.Evaluates e env s (.value x) s₁ ∧ ∃ fuel, k fuel x s₁ = some (o, s')) ∨
      ∃ l args, o = .exit l args ∧ M.Evaluates e env s (.exit l args) s' := by
  constructor
  · rintro ⟨_ | fuel, h⟩
    · cases h
    rw [hrun] at h
    cases he : M.run fuel e env s with
    | none => rw [he] at h; cases h
    | some p =>
      rw [he] at h
      obtain ⟨o₁, s₁⟩ := p
      cases o₁ with
      | value x => exact .inl ⟨x, s₁, ⟨fuel, he⟩, fuel, h⟩
      | exit l args => cases h; exact .inr ⟨l, args, rfl, ⟨fuel, he⟩⟩
  rintro (⟨x, s₁, ⟨fuel, h⟩, fuel', h'⟩ | ⟨l, args, rfl, ⟨fuel, h⟩⟩)
  · refine ⟨max fuel fuel' + 1, ?_⟩
    rw [hrun, M.run_mono (Nat.le_max_left _ _) h]
    exact hmono (Nat.le_max_right _ _) h'
  · exact ⟨fuel + 1, by rw [hrun, h]⟩

theorem evaluates_clet {exp : Expression O} : M.Evaluates (clet v exp body) env s o s' ↔
      (∃ x s₁, M.Evaluates exp env s (.value x) s₁ ∧
        M.Evaluates body (Bindings.set env v x) s₁ o s') ∨
      ∃ l args, o = .exit l args ∧ M.Evaluates exp env s (.exit l args) s' :=
  evaluates_of_run (k := fun fuel x s => M.run fuel body (Bindings.set env v x) s)
    (fun fuel s => by rw [run])
    fun hle _ _ _ h => M.run_mono hle h

theorem evaluates_csequence {e1 e2 : Expression O} : M.Evaluates (csequence e1 e2) env s o s' ↔
      (∃ x s₁, M.Evaluates e1 env s (.value x) s₁ ∧ M.Evaluates e2 env s₁ o s') ∨
      ∃ l args, o = .exit l args ∧ M.Evaluates e1 env s (.exit l args) s' :=
  evaluates_of_run (k := fun fuel _ s => M.run fuel e2 env s) (fun fuel s => by rw [run])
    fun hle _ _ _ h => M.run_mono hle h

theorem evaluates_cifthenelse {cond ifso ifnot : Expression O} :
    M.Evaluates (cifthenelse cond ifso ifnot) env s o s' ↔
      (∃ w s₁, M.Evaluates cond env s (.value (.word w)) s₁ ∧
        M.Evaluates (if w ≠ 0 then ifso else ifnot) env s₁ o s') ∨
      ∃ l args, o = .exit l args ∧ M.Evaluates cond env s (.exit l args) s' := by
  refine (evaluates_of_run (k := fun fuel x s =>
    match x with
    | .word w => M.run fuel (if w ≠ 0 then ifso else ifnot) env s
    | .wide _ => none) (fun fuel s => ?_) fun hle x s r h => ?_).trans (or_congr ?_ Iff.rfl)
  · rw [run]
    rcases M.run fuel cond env s with _ | ⟨(w | x) | _, _⟩
    · rfl
    · dsimp only; split <;> rfl
    · rfl
    · rfl
  · cases x with
    | word w => exact M.run_mono hle h
    | wide x => cases h
  constructor
  · rintro ⟨w | x, s₁, hc, fuel, h⟩
    · exact ⟨w, s₁, hc, fuel, h⟩
    · cases h
  · rintro ⟨w, s₁, hc, fuel, h⟩; exact ⟨_, s₁, hc, fuel, h⟩

theorem evaluates_cswitch {scrutinee : Expression O} {cases' : List Nat}
    {actions : List (Expression O)} :
    M.Evaluates (cswitch scrutinee cases' actions) env s o s' ↔
      (∃ w s₁ i action, M.Evaluates scrutinee env s (.value (.word w)) s₁ ∧
        cases'[w.toNat]? = some i ∧ actions[i]? = some action ∧
        M.Evaluates action env s₁ o s') ∨
      ∃ l args, o = .exit l args ∧ M.Evaluates scrutinee env s (.exit l args) s' := by
  refine (evaluates_of_run (k := fun fuel x s =>
    match x with
    | .word w => (cases'[w.toNat]?).bind fun i => (actions[i]?).bind fun e => M.run fuel e env s
    | .wide _ => none) (fun fuel s => ?_) fun hle x s r h => ?_).trans (or_congr ?_ Iff.rfl)
  · rw [run]
    rcases M.run fuel scrutinee env s with _ | ⟨(w | x) | _, _⟩
    · rfl
    · dsimp only
      cases cases'[w.toNat]? with
      | none => rfl
      | some i => simp only [Option.bind_some]; cases actions[i]? <;> rfl
    · rfl
    · rfl
  · cases x with
    | word w =>
      obtain ⟨i, hi, h⟩ := bind_eq_some_iff.1 h
      obtain ⟨action, ha, h⟩ := bind_eq_some_iff.1 h
      exact bind_eq_some_iff.2 ⟨i, hi, bind_eq_some_iff.2 ⟨_, ha, M.run_mono hle h⟩⟩
    | wide x => cases h
  constructor
  · rintro ⟨w | x, s₁, hc, fuel, h⟩
    · obtain ⟨i, hi, h⟩ := bind_eq_some_iff.1 h
      obtain ⟨action, ha, h⟩ := bind_eq_some_iff.1 h
      exact ⟨w, s₁, i, action, hc, hi, ha, fuel, h⟩
    · cases h
  · rintro ⟨w, s₁, i, action, hc, hi, ha, fuel, h⟩
    exact ⟨_, s₁, hc, fuel, by simpa [hi, ha] using h⟩

/-- The arguments end with values, or with an exit. -/
def EvaluatesArgs (M : Machine O X σ) (es : List (Expression O)) (env : Bindings X) (s : σ)
    (r : Except (ExitLabel × List (Value X)) (List (Value X))) (s' : σ) : Prop :=
  ∃ fuel, evalArgs (fun e s => M.run fuel e env s) es s = some (r, s')

variable {es : List (Expression O)}

theorem evalArgs_run_mono (hle : fuel ≤ fuel')
    (h : evalArgs (fun e s => M.run fuel e env s) es s = some r) :
    evalArgs (fun e s => M.run fuel' e env s) es s = some r :=
  evalArgs_mono (fun _ _ _ hr => M.run_mono hle hr) es h

variable {r : Except (ExitLabel × List (Value X)) (List (Value X))}

theorem evaluatesArgs_nil : M.EvaluatesArgs [] env s r s' ↔ r = .ok [] ∧ s' = s := by
  constructor
  · rintro ⟨fuel, h⟩
    cases h
    exact ⟨rfl, rfl⟩
  · rintro ⟨rfl, rfl⟩; exact ⟨0, rfl⟩

theorem evaluatesArgs_cons : M.EvaluatesArgs (e :: es) env s r s' ↔
      (∃ x, r = .error x ∧ M.EvaluatesArgs es env s (.error x) s') ∨
      ∃ vs s₁, M.EvaluatesArgs es env s (.ok vs) s₁ ∧
        ((∃ v, r = .ok (v :: vs) ∧ M.Evaluates e env s₁ (.value v) s') ∨
          ∃ l args, r = .error (l, args) ∧ M.Evaluates e env s₁ (.exit l args) s') := by
  constructor
  · rintro ⟨fuel, h⟩
    rw [evalArgs] at h
    cases hes : evalArgs (fun e s => M.run fuel e env s) es s with
    | none => rw [hes] at h; cases h
    | some p =>
      rw [hes] at h
      obtain ⟨vs | vs, s₁⟩ := p
      · cases h; exact .inl ⟨vs, rfl, fuel, hes⟩
      refine .inr ⟨vs, s₁, ⟨fuel, hes⟩, ?_⟩
      dsimp only at h
      cases he : M.run fuel e env s₁ with
      | none => rw [he] at h; cases h
      | some p =>
        rw [he] at h
        obtain ⟨v | ⟨l, args⟩, s₂⟩ := p
        · cases h; exact .inl ⟨v, rfl, fuel, he⟩
        · cases h; exact .inr ⟨l, args, rfl, fuel, he⟩
  rintro (⟨x, rfl, fuel, h⟩ | ⟨vs, s₁, ⟨fuel, h⟩, ⟨v, rfl, fuel', h'⟩ |
    ⟨l, args, rfl, fuel', h'⟩⟩)
  · exact ⟨fuel, by rw [evalArgs, h]⟩
  · refine ⟨max fuel fuel', ?_⟩
    rw [evalArgs, evalArgs_run_mono (Nat.le_max_left _ _) h]
    simp only [M.run_mono (Nat.le_max_right fuel fuel') h']
  refine ⟨max fuel fuel', ?_⟩
  rw [evalArgs, evalArgs_run_mono (Nat.le_max_left _ _) h]
  simp only [M.run_mono (Nat.le_max_right fuel fuel') h']

theorem evaluates_cop {op : Operation O} {args : List (Expression O)} :
    M.Evaluates (cop op args) env s o s' ↔
      (∃ vs s₁, M.EvaluatesArgs args env s (.ok vs) s₁ ∧ M.apply op vs s₁ = some (o, s')) ∨
      ∃ l vs, o = .exit l vs ∧ M.EvaluatesArgs args env s (.error (l, vs)) s' := by
  constructor
  · rintro ⟨_ | fuel, h⟩
    · cases h
    rw [run] at h
    cases hargs : evalArgs (fun e s => M.run fuel e env s) args s with
    | none => rw [hargs] at h; cases h
    | some p =>
      rw [hargs] at h
      obtain ⟨⟨l, vs⟩ | vs, s₁⟩ := p
      · cases h; exact .inr ⟨l, vs, rfl, fuel, hargs⟩
      · exact .inl ⟨vs, s₁, ⟨fuel, hargs⟩, h⟩
  rintro (⟨vs, s₁, ⟨fuel, h⟩, h'⟩ | ⟨l, vs, rfl, fuel, h⟩)
  · exact ⟨fuel + 1, by rw [run, h]; exact h'⟩
  · exact ⟨fuel + 1, by rw [run, h]⟩

/-- An exit to `l` below a `Ccatch` ends with `o`. -/
def Handles (M : Machine O X σ) (flag : CcatchFlag)
    (handlers : List (StaticHandler (Expression O))) (env : Bindings X) (l : StaticLabel)
    (args : List (Value X)) (s : σ) (o : Outcome X) (s' : σ) : Prop :=
  ∃ fuel, M.handle fuel flag handlers env l args s = some (o, s')

theorem evaluates_ccatch : M.Evaluates (ccatch flag handlers body) env s o s' ↔
      (M.Evaluates body env s o s' ∧ ∀ l args, o ≠ .exit (.lbl l) args) ∨
      ∃ l args s₁, M.Evaluates body env s (.exit (.lbl l) args) s₁ ∧
        M.Handles flag handlers env l args s₁ o s' := by
  constructor
  · rintro ⟨_ | fuel, h⟩
    · cases h
    rw [run] at h
    cases hb : M.run fuel body env s with
    | none => rw [hb] at h; cases h
    | some p =>
      rw [hb] at h
      obtain ⟨o₁, s₁⟩ := p
      rcases o₁ with v | ⟨_ | l, args⟩
      · cases h; exact .inl ⟨⟨fuel, hb⟩, fun _ _ h => by cases h⟩
      · cases h; exact .inl ⟨⟨fuel, hb⟩, fun _ _ h => by cases h⟩
      · exact .inr ⟨l, args, s₁, ⟨fuel, hb⟩, fuel, h⟩
  rintro (⟨⟨fuel, h⟩, hne⟩ | ⟨l, args, s₁, ⟨fuel, h⟩, fuel', h'⟩)
  · refine ⟨fuel + 1, ?_⟩
    rw [run, h]
    rcases o with v | ⟨_ | l, args⟩
    · rfl
    · rfl
    · exact absurd rfl (hne l args)
  refine ⟨max fuel fuel' + 1, ?_⟩
  rw [run, M.run_mono (Nat.le_max_left _ _) h]
  exact M.handle_mono (Nat.le_max_right _ _) h'

end Equations

/-! ## §4 Effects -/

variable (M)

/-- Operations that leave the machine state alone. -/
def quietOp : Operation O → Bool
  | .other op => !M.effects op
  | _ => true

/-- Operations that end with a value, if they end. -/
noncomputable def steadyOp (op : Operation O) : Bool :=
  @decide (∀ args s l vs s', M.apply op args s ≠ some (.exit l vs, s')) (Classical.propDecidable _)

/-- Operations that neither change nor read the machine state. -/
def pureOp : Operation O → Bool
  | .other op => !M.effects op && !M.coeffects op
  | .cload .. => false
  | _ => true

variable {op : Operation O}

theorem quietOp_of_pureOp (h : M.pureOp op = true) : M.quietOp op = true := by
  cases op <;> simp_all [pureOp, quietOp]

theorem apply_of_quietOp (hop : M.quietOp op = true) (h : M.apply op args s = some (o, s')) :
    s' = s ∧ ∃ v, o = .value v := by
  unfold apply at h
  split at h
  · obtain ⟨v, -, h⟩ := map_eq_some_iff.1 h
    cases h
    exact ⟨rfl, v, rfl⟩
  · obtain ⟨b, -, h⟩ := map_eq_some_iff.1 h
    cases h
    exact ⟨rfl, _, rfl⟩
  · exact M.no_effects (by simpa [quietOp] using hop) h
  split at h
  · obtain ⟨w, -, h⟩ := map_eq_some_iff.1 h
    cases h
    exact ⟨rfl, _, rfl⟩
  · cases h

theorem steadyOp_iff : M.steadyOp op = true ↔
    ∀ args s l vs s', M.apply op args s ≠ some (.exit l vs, s') := by
  rw [steadyOp]
  exact @decide_eq_true_iff _ (Classical.propDecidable _)

theorem steadyOp_of_quietOp (hop : M.quietOp op = true) : M.steadyOp op = true := by
  rw [steadyOp_iff]
  intro args s l vs s' h
  obtain ⟨-, v, hv⟩ := M.apply_of_quietOp hop h
  cases hv

theorem apply_of_steadyOp (hop : M.steadyOp op = true) (h : M.apply op args s = some (o, s')) : ∃ v,
    o = .value v := by
  cases o with
  | value v => exact ⟨v, rfl⟩
  | exit l vs => exact absurd h (M.steadyOp_iff.1 hop args s l vs s')

theorem apply_of_pureOp (hop : M.pureOp op = true) (h : M.apply op args s = some (o, s')) (t : σ) :
    M.apply op args t = some (o, t) := by
  unfold apply at h ⊢
  split at h
  · cases hop
  · obtain ⟨b, hb, h⟩ := map_eq_some_iff.1 h
    cases h
    rw [hb]
    rfl
  · rw [pureOp, and_eq_true, Bool.not_eq_true', Bool.not_eq_true'] at hop
    exact M.no_coeffects hop.1 hop.2 h t
  split at h
  · obtain ⟨w, hw, h⟩ := map_eq_some_iff.1 h
    cases h
    rw [hw]
    rfl
  · cases h

end Machine

namespace Expression

mutual

/-- Neither handlers nor exits, and only operations that are `ok`. -/
def confined (ok : Operation O → Bool) : Expression O → Bool
  | cconstInt _ => true
  | cconstNatint _ => true
  | cconst _ => true
  | cconstSymbol _ => true
  | cvar _ => true
  | clet _ exp body => exp.confined ok && body.confined ok
  | cphantomLet _ _ body => body.confined ok
  | cnameForDebugger _ body => body.confined ok
  | ctuple exprs => confinedList ok exprs
  | cop op args => ok op && confinedList ok args
  | csequence e1 e2 => e1.confined ok && e2.confined ok
  | cifthenelse cond ifso ifnot => cond.confined ok && ifso.confined ok && ifnot.confined ok
  | cswitch scrutinee _ actions => scrutinee.confined ok && confinedList ok actions
  | ccatch .. => false
  | cexit .. => false
  | cinvalid .. => false

def confinedList (ok : Operation O → Bool) : List (Expression O) → Bool
  | [] => true
  | e :: es => e.confined ok && confinedList ok es

end

attribute [local grind =] confined confinedList

mutual

/-- The variables that an expression mentions, bound or free. -/
def vars : Expression O → List BackendVar
  | cconstInt _ => []
  | cconstNatint _ => []
  | cconst _ => []
  | cconstSymbol _ => []
  | cvar v => [v]
  | clet v exp body => v :: exp.vars ++ body.vars
  | cphantomLet _ _ body => body.vars
  | cnameForDebugger _ body => body.vars
  | ctuple exprs => varsList exprs
  | cop _ args => varsList args
  | csequence e1 e2 => e1.vars ++ e2.vars
  | cifthenelse cond ifso ifnot => cond.vars ++ ifso.vars ++ ifnot.vars
  | cswitch scrutinee _ actions => scrutinee.vars ++ varsList actions
  | ccatch _ handlers body => varsHandlers handlers ++ body.vars
  | cexit _ args _ => varsList args
  | cinvalid _ _ => []

def varsList : List (Expression O) → List BackendVar
  | [] => []
  | e :: es => e.vars ++ varsList es

def varsHandlers : List (StaticHandler (Expression O)) → List BackendVar
  | [] => []
  | ⟨_, params, body, _⟩ :: hs => params.map Prod.fst ++ body.vars ++ varsHandlers hs

end

attribute [local grind =] vars varsList varsHandlers

mutual

/-- The variables that a `let` of an expression binds. -/
def binders : Expression O → List BackendVar
  | cconstInt _ => []
  | cconstNatint _ => []
  | cconst _ => []
  | cconstSymbol _ => []
  | cvar _ => []
  | clet v exp body => v :: exp.binders ++ body.binders
  | cphantomLet _ _ body => body.binders
  | cnameForDebugger _ body => body.binders
  | ctuple exprs => bindersList exprs
  | cop _ args => bindersList args
  | csequence e1 e2 => e1.binders ++ e2.binders
  | cifthenelse cond ifso ifnot => cond.binders ++ ifso.binders ++ ifnot.binders
  | cswitch scrutinee _ actions => scrutinee.binders ++ bindersList actions
  | ccatch _ handlers body => bindersHandlers handlers ++ body.binders
  | cexit _ args _ => bindersList args
  | cinvalid _ _ => []

def bindersList : List (Expression O) → List BackendVar
  | [] => []
  | e :: es => e.binders ++ bindersList es

def bindersHandlers : List (StaticHandler (Expression O)) → List BackendVar
  | [] => []
  | ⟨_, _, body, _⟩ :: hs => body.binders ++ bindersHandlers hs

end

attribute [local grind =] binders bindersList bindersHandlers

end Expression

namespace Machine

variable {M : Machine O X σ}

variable {e : Expression O}

variable {es : List (Expression O)} {v : BackendVar}

theorem mem_varsList (he : e ∈ es) (hv : v ∈ e.vars) : v ∈ varsList es := by
  induction es with
  | nil => cases he
  | cons e' es ih =>
    rw [varsList, List.mem_append]
    cases he with
    | head => exact .inl hv
    | tail _ he => exact .inr (ih he)

theorem mem_varsHandlers {hs : List (StaticHandler (Expression O))}
    {h : StaticHandler (Expression O)} (hh : h ∈ hs) (hv : v ∈ h.body.vars) :
    v ∈ varsHandlers hs := by
  induction hs with
  | nil => cases hh
  | cons h' hs ih =>
    rw [varsHandlers, List.mem_append, List.mem_append]
    cases hh with
    | head => exact .inl (.inr hv)
    | tail _ hh => exact .inr (ih hh)

/-- Two environments agree on the variables `vs`. -/
def AgreeOn (vs : List BackendVar) (env env' : Bindings X) : Prop := ∀ v ∈ vs, env v = env' v

variable {vs : List BackendVar}

theorem AgreeOn.set {env env' : Bindings X} (h : AgreeOn vs env env')
    (v : BackendVar) (x : Value X) : AgreeOn vs (Bindings.set env v x) (Bindings.set env' v x) := by
  intro w hw
  unfold Bindings.set
  split
  · rfl
  · exact h w hw

theorem AgreeOn.bindParams {params : List (BackendVar × Machtype)}
    {args : List (Value X)} {env env' : Bindings X} (h : AgreeOn vs env env') :
    (bindParams env params args = none ∧ bindParams env' params args = none) ∨
      ∃ env₁ env₁', bindParams env params args = some env₁ ∧
        bindParams env' params args = some env₁' ∧ AgreeOn vs env₁ env₁' := by
  induction params generalizing args env env' with
  | nil =>
    cases args with
    | nil => exact .inr ⟨env, env', rfl, rfl, h⟩
    | cons x args => exact .inl ⟨rfl, rfl⟩
  | cons p params ih =>
    cases args with
    | nil => exact .inl ⟨rfl, rfl⟩
    | cons x args => exact ih (h.set p.1 x)

theorem evalArgs_congr {ev ev' : Expression O → σ → Option (Outcome X × σ)}
    (h : ∀ e ∈ es, ∀ s, ev e s = ev' e s) (s : σ) :
    evalArgs ev es s = evalArgs ev' es s := by
  induction es with
  | nil => rfl
  | cons e es ih =>
    rw [evalArgs, evalArgs, ih fun e' he' => h e' (List.mem_cons_of_mem _ he')]
    simp only [h e List.mem_cons_self]

theorem run_congr (fuel : Nat) :
    (∀ (e : Expression O) (env env' : Bindings X) (s : σ), AgreeOn e.vars env env' →
      M.run fuel e env s = M.run fuel e env' s) ∧
    ∀ flag (hs : List (StaticHandler (Expression O))) (env env' : Bindings X) l args (s : σ),
      AgreeOn (varsHandlers hs) env env' →
        M.handle fuel flag hs env l args s = M.handle fuel flag hs env' l args s := by
  induction fuel with
  | zero => exact ⟨fun _ _ _ _ _ => rfl, fun _ _ _ _ _ _ _ _ => rfl⟩
  | succ fuel ih =>
    obtain ⟨ihrun, ihhandle⟩ := ih
    have ihargs : ∀ (es : List (Expression O)) (env env' : Bindings X) (s : σ),
        AgreeOn (varsList es) env env' → evalArgs (fun e s => M.run fuel e env s) es s =
          evalArgs (fun e s => M.run fuel e env' s) es s := fun es env env' s h =>
      evalArgs_congr (fun e he s => ihrun e env env' s fun v hv => h v (mem_varsList he hv)) s
    refine ⟨fun e env env' s h => ?_, fun flag hs env env' l args s h => ?_⟩
    · cases e with
      | cconstInt n | cconstNatint n | cconst l | cconstSymbol sym | cinvalid m sym => rfl
      | cvar v => rw [run, run, h v List.mem_cons_self]
      | cphantomLet v d body | cnameForDebugger v body => exact ihrun _ _ _ _ h
      | clet v exp body =>
        rw [run, run, ihrun exp env env' s fun w hw => h w (by simp [vars, hw])]
        have hbody : ∀ x s, M.run fuel body (Bindings.set env v x) s =
            M.run fuel body (Bindings.set env' v x) s := fun x s =>
          ihrun _ _ _ _ fun w hw => AgreeOn.set h v x w (by simp [vars, hw])
        simp only [hbody]
      | csequence e1 e2 =>
        rw [run, run, ihrun e1 env env' s fun w hw => h w (by simp [vars, hw])]
        have he2 : ∀ s, M.run fuel e2 env s = M.run fuel e2 env' s := fun s =>
          ihrun _ _ _ _ fun w hw => h w (by simp [vars, hw])
        simp only [he2]
      | ctuple exprs => rw [run, run, ihargs exprs env env' s h]
      | cop op args | cexit label args traps => rw [run, run, ihargs args env env' s h]
      | cifthenelse cond ifso ifnot =>
        rw [run, run, ihrun cond env env' s fun w hw => h w (by simp [vars, hw])]
        have hso : ∀ s, M.run fuel ifso env s = M.run fuel ifso env' s := fun s =>
          ihrun _ _ _ _ fun w hw => h w (by simp [vars, hw])
        have hnot : ∀ s, M.run fuel ifnot env s = M.run fuel ifnot env' s := fun s =>
          ihrun _ _ _ _ fun w hw => h w (by simp [vars, hw])
        simp only [hso, hnot]
      | cswitch scrutinee cases' actions =>
        rw [run, run, ihrun scrutinee env env' s fun w hw => h w (by simp [vars, hw])]
        have hactions : ∀ action ∈ actions, ∀ s,
            M.run fuel action env s = M.run fuel action env' s := fun action ha s =>
          ihrun _ _ _ _ fun w hw => h w (by
            rw [vars, List.mem_append]
            exact .inr (mem_varsList ha hw))
        cases M.run fuel scrutinee env' s with
        | none => rfl
        | some p =>
          obtain ⟨(w | x) | ⟨l, args⟩, s₁⟩ := p
          · dsimp only
            cases cases'[w.toNat]? with
            | none => rfl
            | some i =>
              dsimp only
              cases ha : actions[i]? with
              | none => rfl
              | some action => exact hactions action (List.mem_of_getElem? ha) s₁
          · rfl
          · rfl
      | ccatch flag hs body =>
        rw [run, run, ihrun body env env' s fun w hw => h w (by simp [vars, hw])]
        have hhandle : ∀ l args s, M.handle fuel flag hs env l args s =
            M.handle fuel flag hs env' l args s := fun l args s =>
          ihhandle _ _ _ _ _ _ _ fun w hw => h w (by simp [vars, hw])
        simp only [hhandle]
    rw [handle, handle]
    cases hfind : hs.find? fun h => h.label = l with
    | none => rfl
    | some hd =>
      dsimp only
      have hd' : hd ∈ hs := List.mem_of_find?_eq_some hfind
      have hhandle : ∀ l args s, M.handle fuel flag hs env l args s =
          M.handle fuel flag hs env' l args s := fun l args s => ihhandle _ _ _ _ _ _ _ h
      rcases h.bindParams with ⟨h₁, h₂⟩ | ⟨env₁, env₁', h₁, h₂, hagree⟩
      · rw [h₁, h₂]
      rw [h₁, h₂]
      dsimp only
      rw [ihrun hd.body env₁ env₁' s fun w hw => hagree w (mem_varsHandlers hd' hw)]
      simp only [hhandle]

variable {o : Outcome X}

variable {s s' : σ}

/-- Only the variables that are mentioned matter. -/
theorem Evaluates.congr {env env' : Bindings X}
    (h : M.Evaluates e env s o s') (hagree : AgreeOn e.vars env env') :
    M.Evaluates e env' s o s' := by
  obtain ⟨fuel, h⟩ := h
  exact ⟨fuel, ((run_congr fuel).1 e env env' s hagree).symm.trans h⟩

variable {env : Bindings X}

/-- A variable that is not mentioned may be set. -/
theorem Evaluates.set (h : M.Evaluates e env s o s') (hv : v ∉ e.vars) (x : Value X) :
    M.Evaluates e (Bindings.set env v x) s o s' := by
  refine h.congr fun w hw => ?_
  unfold Bindings.set
  rw [if_neg]
  rintro rfl
  exact hv hw

variable {ok : Operation O → Bool}

theorem confinedList_iff : confinedList ok es = true ↔ ∀ e ∈ es, e.confined ok = true := by
  induction es with
  | nil => simp [confinedList]
  | cons e es ih => simp [confinedList, ih]

section Confined

variable {P : σ → σ → Prop} {anyState : Prop} (hrefl : ∀ s, P s s)
  (htrans : ∀ s₁ s₂ s₃, P s₁ s₂ → P s₂ s₃ → P s₁ s₃)
include hrefl htrans

/-- Arguments that end with values, and change the state as `P` allows; the same from any
state, if `anyState`. -/
theorem evalArgs_confined {ev : Expression O → σ → Option (Outcome X × σ)}
    (h : ∀ e ∈ es, ∀ s o s', ev e s = some (o, s') →
      P s s' ∧ (∃ v, o = .value v) ∧ (anyState → ∀ t, ev e t = some (o, t)))
    {r : Except (ExitLabel × List (Value X)) (List (Value X))}
    (hr : evalArgs ev es s = some (r, s')) :
    P s s' ∧ (∃ vs, r = .ok vs) ∧ (anyState → ∀ t, evalArgs ev es t = some (r, t)) := by
  induction es generalizing r s' with
  | nil => cases hr; exact ⟨hrefl _, ⟨[], rfl⟩, fun _ _ => rfl⟩
  | cons e es ih =>
    rw [evalArgs] at hr
    cases hes : evalArgs ev es s with
    | none => rw [hes] at hr; cases hr
    | some p =>
      obtain ⟨r₁, s₁⟩ := p
      obtain ⟨hP, ⟨vs, rfl⟩, hany⟩ := ih (fun e' he' => h e' (List.mem_cons_of_mem _ he')) hes
      rw [hes] at hr
      dsimp only at hr
      cases he : ev e s₁ with
      | none => rw [he] at hr; cases hr
      | some p =>
        obtain ⟨o, s₂⟩ := p
        obtain ⟨hP', ⟨v, rfl⟩, hany'⟩ := h e List.mem_cons_self _ _ _ he
        rw [he] at hr
        cases hr
        refine ⟨htrans _ _ _ hP hP', ⟨_, rfl⟩, fun hc t => ?_⟩
        rw [evalArgs, hany hc t]
        dsimp only
        rw [hany' hc t]

/-- What holds of the operations of an expression without exits holds of its evaluation. -/
theorem run_confined (hok : ∀ op args s o s', ok op = true → M.apply op args s = some (o, s') →
      P s s' ∧ (∃ v, o = .value v) ∧ (anyState → ∀ t, M.apply op args t = some (o, t)))
    (fuel : Nat) (e : Expression O) (env : Bindings X) (s : σ) (o : Outcome X) (s' : σ)
    (he : e.confined ok = true) (h : M.run fuel e env s = some (o, s')) :
    P s s' ∧ (∃ v, o = .value v) ∧ (anyState → ∀ t, M.run fuel e env t = some (o, t)) := by
  induction fuel generalizing e env s o s' with
  | zero => cases h
  | succ fuel ih =>
    have ihargs : ∀ {es : List (Expression O)} {env : Bindings X} {s s' : σ} {r},
        confinedList ok es = true → evalArgs (fun e s => M.run fuel e env s) es s = some (r, s') →
        P s s' ∧ (∃ vs, r = .ok vs) ∧
          (anyState → ∀ t, evalArgs (fun e s => M.run fuel e env s) es t = some (r, t)) :=
      fun hes h => evalArgs_confined hrefl htrans
        (fun e he s o s' h' => ih e _ s o s' (confinedList_iff.1 hes e he) h') h
    cases e with
    | cconstInt n | cconstNatint n | cconst l
    | cconstSymbol sym => cases h; exact ⟨hrefl _, ⟨_, rfl⟩, fun _ _ => rfl⟩
    | cinvalid m sym => cases h
    | cvar v =>
      obtain ⟨x, hx, h⟩ := map_eq_some_iff.1 h
      cases h
      exact ⟨hrefl _, ⟨x, rfl⟩, fun _ _ => by rw [run, hx]; rfl⟩
    | ccatch flag hs body | cexit label args traps => cases he
    | cphantomLet v d body | cnameForDebugger v body => exact ih body _ _ _ _ he h
    | clet v exp body =>
      rw [confined, and_eq_true] at he
      rw [run] at h
      cases hexp : M.run fuel exp env s with
      | none => rw [hexp] at h; cases h
      | some p =>
        obtain ⟨o₁, s₁⟩ := p
        obtain ⟨hP, ⟨x, rfl⟩, hany⟩ := ih _ _ _ _ _ he.1 hexp
        rw [hexp] at h
        obtain ⟨hP', hv, hany'⟩ := ih _ _ _ _ _ he.2 h
        refine ⟨htrans _ _ _ hP hP', hv, fun hc t => ?_⟩
        rw [run, hany hc t]
        exact hany' hc t
    | csequence e1 e2 =>
      rw [confined, and_eq_true] at he
      rw [run] at h
      cases hexp : M.run fuel e1 env s with
      | none => rw [hexp] at h; cases h
      | some p =>
        obtain ⟨o₁, s₁⟩ := p
        obtain ⟨hP, ⟨x, rfl⟩, hany⟩ := ih _ _ _ _ _ he.1 hexp
        rw [hexp] at h
        obtain ⟨hP', hv, hany'⟩ := ih _ _ _ _ _ he.2 h
        refine ⟨htrans _ _ _ hP hP', hv, fun hc t => ?_⟩
        rw [run, hany hc t]
        exact hany' hc t
    | ctuple exprs =>
      rw [run] at h
      cases hargs : evalArgs (fun e s => M.run fuel e env s) exprs s with
      | none => rw [hargs] at h; cases h
      | some p =>
        obtain ⟨r, s₁⟩ := p
        obtain ⟨hP, ⟨vs, rfl⟩, hany⟩ := ihargs he hargs
        rw [hargs] at h
        cases h
        exact ⟨hP, ⟨_, rfl⟩, fun hc t => by rw [run, hany hc t]⟩
    | cop op args =>
      rw [confined, and_eq_true] at he
      rw [run] at h
      cases hargs : evalArgs (fun e s => M.run fuel e env s) args s with
      | none => rw [hargs] at h; cases h
      | some p =>
        obtain ⟨r, s₁⟩ := p
        obtain ⟨hP, ⟨vs, rfl⟩, hany⟩ := ihargs he.2 hargs
        rw [hargs] at h
        obtain ⟨hP', hv, hany'⟩ := hok _ _ _ _ _ he.1 h
        refine ⟨htrans _ _ _ hP hP', hv, fun hc t => ?_⟩
        rw [run, hany hc t]
        exact hany' hc t
    | cifthenelse cond ifso ifnot =>
      rw [confined, and_eq_true, and_eq_true] at he
      rw [run] at h
      cases hc : M.run fuel cond env s with
      | none => rw [hc] at h; cases h
      | some p =>
        obtain ⟨o₁, s₁⟩ := p
        obtain ⟨hP, ⟨x, rfl⟩, hany⟩ := ih _ _ _ _ _ he.1.1 hc
        rw [hc] at h
        cases x with
        | word w =>
          dsimp only at h
          split at h
          · obtain ⟨hP', hv, hany'⟩ := ih _ _ _ _ _ he.1.2 h
            refine ⟨htrans _ _ _ hP hP', hv, fun hc t => ?_⟩
            rw [run, hany hc t]
            exact (if_pos ‹_›).trans (hany' hc t)
          obtain ⟨hP', hv, hany'⟩ := ih _ _ _ _ _ he.2 h
          refine ⟨htrans _ _ _ hP hP', hv, fun hc t => ?_⟩
          rw [run, hany hc t]
          exact (if_neg ‹_›).trans (hany' hc t)
        | wide x => cases h
    | cswitch scrutinee cases' actions =>
      rw [confined, and_eq_true] at he
      rw [run] at h
      cases hc : M.run fuel scrutinee env s with
      | none => rw [hc] at h; cases h
      | some p =>
        obtain ⟨o₁, s₁⟩ := p
        obtain ⟨hP, ⟨x, rfl⟩, hany⟩ := ih _ _ _ _ _ he.1 hc
        rw [hc] at h
        cases x with
        | word w =>
          dsimp only at h
          cases hi : cases'[w.toNat]? with
          | none => rw [hi] at h; cases h
          | some i =>
            rw [hi] at h
            dsimp only at h
            cases ha : actions[i]? with
            | none => rw [ha] at h; cases h
            | some action =>
              rw [ha] at h
              obtain ⟨hP', hv, hany'⟩ :=
                ih _ _ _ _ _ (confinedList_iff.1 he.2 _ (List.mem_of_getElem? ha)) h
              refine ⟨htrans _ _ _ hP hP', hv, fun hc t => ?_⟩
              rw [run, hany hc t]
              simpa only [hi, ha] using hany' hc t
        | wide x => cases h

end Confined

variable (M)

/-- Evaluating `e` leaves the machine state alone. -/
def Quiet (e : Expression O) : Prop := e.confined M.quietOp = true

/-- Evaluating `e` neither changes nor reads the machine state. -/
def Pure (e : Expression O) : Prop := e.confined M.pureOp = true

/-- Evaluating `e` does not leave by an exit. -/
def Steady (e : Expression O) : Prop := e.confined M.steadyOp = true

variable {M}

theorem Steady.evaluates (he : M.Steady e) (h : M.Evaluates e env s o s') : ∃ v, o = .value v := by
  obtain ⟨fuel, h⟩ := h
  exact (run_confined (P := fun _ _ => True)  (fun _ => trivial) (fun _ _ _ _ _ => trivial)
    (fun _ _ _ _ _ hop h => ⟨trivial, M.apply_of_steadyOp hop h, False.elim⟩)
    fuel e env s o s' he h).2.1

theorem Quiet.evaluates (he : M.Quiet e) (h : M.Evaluates e env s o s') :
    s' = s ∧ ∃ v, o = .value v := by
  obtain ⟨fuel, h⟩ := h
  obtain ⟨hs, hv, -⟩ := run_confined (P := fun s s' => s' = s)  (fun _ => rfl)
    (fun _ _ _ h h' => h'.trans h)
    (fun _ _ _ _ _ hop h =>
      ⟨(M.apply_of_quietOp hop h).1, (M.apply_of_quietOp hop h).2, False.elim⟩)
    fuel e env s o s' he h
  exact ⟨hs, hv⟩

theorem Pure.evaluates (he : M.Pure e) (h : M.Evaluates e env s o s') (t : σ) :
    M.Evaluates e env t o t := by
  obtain ⟨fuel, h⟩ := h
  refine ⟨fuel, (run_confined (P := fun _ _ => True)  (fun _ => trivial)
    (fun _ _ _ _ _ => trivial) (fun _ _ _ _ _ hop h => ⟨trivial, ?_, fun _ =>
      M.apply_of_pureOp hop h⟩) fuel e env s o s' he h).2.2 trivial t⟩
  exact (M.apply_of_quietOp (M.quietOp_of_pureOp hop) h).2

end Machine

namespace Expression

mutual

theorem confined_mono {ok ok' : Operation O → Bool} (h : ∀ op, ok op = true → ok' op = true) :
    (e : Expression O) → e.confined ok = true → e.confined ok' = true
  | cconstInt _, _ => rfl
  | cconstNatint _, _ => rfl
  | cconst _, _ => rfl
  | cconstSymbol _, _ => rfl
  | cvar _, _ => rfl
  | clet _ exp body, he => by
    rw [confined, and_eq_true] at he ⊢
    exact ⟨confined_mono h exp he.1, confined_mono h body he.2⟩
  | cphantomLet _ _ body, he => confined_mono h body he
  | cnameForDebugger _ body, he => confined_mono h body he
  | ctuple exprs, he => confinedList_mono h exprs he
  | cop op args, he => by
    rw [confined, and_eq_true] at he ⊢
    exact ⟨h op he.1, confinedList_mono h args he.2⟩
  | csequence e1 e2, he => by
    rw [confined, and_eq_true] at he ⊢
    exact ⟨confined_mono h e1 he.1, confined_mono h e2 he.2⟩
  | cifthenelse cond ifso ifnot, he => by
    rw [confined, and_eq_true, and_eq_true] at he ⊢
    exact ⟨⟨confined_mono h cond he.1.1, confined_mono h ifso he.1.2⟩, confined_mono h ifnot he.2⟩
  | cswitch scrutinee _ actions, he => by
    rw [confined, and_eq_true] at he ⊢
    exact ⟨confined_mono h scrutinee he.1, confinedList_mono h actions he.2⟩
  | ccatch .., he => by cases he
  | cexit .., he => by cases he
  | cinvalid .., he => by cases he

theorem confinedList_mono {ok ok' : Operation O → Bool} (h : ∀ op, ok op = true → ok' op = true) :
    (es : List (Expression O)) → confinedList ok es = true → confinedList ok' es = true
  | [], _ => rfl
  | e :: es, he => by
    rw [confinedList, and_eq_true] at he ⊢
    exact ⟨confined_mono h e he.1, confinedList_mono h es he.2⟩

end

end Expression

theorem Machine.Pure.quiet {M : Machine O X σ} {e : Expression O} (h : M.Pure e) : M.Quiet e :=
  confined_mono (fun _ => M.quietOp_of_pureOp) e h

end Oxcaml.Backend
