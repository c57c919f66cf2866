/-
Oxcaml.Backend.CmmTails — expressions with other tails.

`map_tail` reaches all the tails of an expression: under `let`s and sequences,
as `map_tail1` does, and in the branches of conditionals, switches and
handlers. `Retailed P e e'` says that `e'` is `e` with each tail replaced by
one that `P` allows; `mapTail` gives such expressions, and weights, outcomes and
hereditary properties carry over from the tails to the whole.
-/
import Oxcaml.Backend.CmmTotality

set_option linter.all false

namespace Oxcaml.Backend

open List (mem_append mem_cons_of_mem mem_cons_self)

open Expression CmmHelpers CmmPeepholeEngine

variable {O X σ : Type}

/-! ## §1 Replaced tails -/

mutual

/-- `e'` is `e` with tails that `P` relates to those of `e`. -/
inductive Retailed (P : Expression O → Expression O → Prop) : Expression O → Expression O → Prop
  | tail {e t} : P e t → Retailed P e t
  | cexit (label args traps) : Retailed P (cexit label args traps) (cexit label args traps)
  | cinvalid (message symbol) : Retailed P (cinvalid message symbol) (cinvalid message symbol)
  | clet (v exp) {body body'} : Retailed P body body' →
    Retailed P (clet v exp body) (clet v exp body')
  | cphantomLet (v d) {body body'} : Retailed P body body' →
    Retailed P (cphantomLet v d body) (cphantomLet v d body')
  | cnameForDebugger (v) {body body'} : Retailed P body body' →
    Retailed P (cnameForDebugger v body) (cnameForDebugger v body')
  | csequence (e1) {e2 e2'} : Retailed P e2 e2' → Retailed P (csequence e1 e2) (csequence e1 e2')
  | cifthenelse (cond) {ifso ifso' ifnot ifnot'} : Retailed P ifso ifso' →
    Retailed P ifnot ifnot' →
      Retailed P (cifthenelse cond ifso ifnot) (cifthenelse cond ifso' ifnot')
  | cswitch (scrutinee cases) {actions actions'} : RetailedList P actions actions' →
    Retailed P (cswitch scrutinee cases actions) (cswitch scrutinee cases actions')
  | ccatch (flag) {handlers handlers' body body'} : RetailedHandlers P handlers handlers' →
    Retailed P body body' → Retailed P (ccatch flag handlers body) (ccatch flag handlers' body')

inductive RetailedList (P : Expression O → Expression O → Prop) :
    List (Expression O) → List (Expression O) → Prop
  | nil : RetailedList P [] []
  | cons {e e' es es'} : Retailed P e e' → RetailedList P es es' →
    RetailedList P (e :: es) (e' :: es')

inductive RetailedHandlers (P : Expression O → Expression O → Prop) :
    List (StaticHandler (Expression O)) → List (StaticHandler (Expression O)) → Prop
  | nil : RetailedHandlers P [] []
  | cons (label params isCold) {body body' hs hs'} : Retailed P body body' →
    RetailedHandlers P hs hs' →
    RetailedHandlers P (⟨label, params, body, isCold⟩ :: hs) (⟨label, params, body', isCold⟩ :: hs')

end

section

variable {P Q : Expression O → Expression O → Prop}

mutual

theorem Retailed.mono (hPQ : ∀ c t, P c t → Q c t) : {e e' : Expression O} →
    Retailed P e e' → Retailed Q e e'
  | _, _, .tail h => .tail (hPQ _ _ h)
  | _, _, .cexit label args traps => .cexit label args traps
  | _, _, .cinvalid message symbol => .cinvalid message symbol
  | _, _, .clet v exp h => .clet v exp (h.mono hPQ)
  | _, _, .cphantomLet v d h => .cphantomLet v d (h.mono hPQ)
  | _, _, .cnameForDebugger v h => .cnameForDebugger v (h.mono hPQ)
  | _, _, .csequence e1 h => .csequence e1 (h.mono hPQ)
  | _, _, .cifthenelse cond h h' => .cifthenelse cond (h.mono hPQ) (h'.mono hPQ)
  | _, _, .cswitch scrutinee cases' h => .cswitch scrutinee cases' (h.mono hPQ)
  | _, _, .ccatch flag h h' => .ccatch flag (h.mono hPQ) (h'.mono hPQ)

theorem RetailedList.mono (hPQ : ∀ c t, P c t → Q c t) : {es es' : List (Expression O)} →
    RetailedList P es es' → RetailedList Q es es'
  | _, _, .nil => .nil
  | _, _, .cons h hs => .cons (h.mono hPQ) (hs.mono hPQ)

theorem RetailedHandlers.mono (hPQ : ∀ c t, P c t → Q c t) :
    {hs hs' : List (StaticHandler (Expression O))} →
    RetailedHandlers P hs hs' → RetailedHandlers Q hs hs'
  | _, _, .nil => .nil
  | _, _, .cons label params isCold h hs => .cons label params isCold (h.mono hPQ) (hs.mono hPQ)

end

/-- What a function of tails returns. -/
def TailTo {ε : Type} (n : Nat) (f : (c : Expression O) → c.weight ≤ n → Except ε (Expression O))
    (c t : Expression O) : Prop := ∃ h, f c h = .ok t

mutual

theorem mapTail_ok {ε : Type} : (e : Expression O) →
    {f : (c : Expression O) → c.weight ≤ e.weight → Except ε (Expression O)} →
    {r : Expression O} → mapTail e f = .ok r → Retailed (TailTo e.weight f) e r
  | cconstInt n, f, r, h => .tail ⟨_, h⟩
  | cconstNatint n, f, r, h => .tail ⟨_, h⟩
  | cconst l, f, r, h => .tail ⟨_, h⟩
  | cconstSymbol sym, f, r, h => .tail ⟨_, h⟩
  | cvar v, f, r, h => .tail ⟨_, h⟩
  | ctuple exprs, f, r, h => .tail ⟨_, h⟩
  | cop op args, f, r, h => .tail ⟨_, h⟩
  | cexit label args traps, f, r, h => by cases h; exact .cexit label args traps
  | cinvalid message symbol, f, r, h => by cases h; exact .cinvalid message symbol
  | clet v exp body, f, r, h => by
    rw [mapTail] at h
    obtain ⟨body', hbody, h⟩ := bind_ok h
    cases h
    exact .clet v exp ((mapTail_ok body hbody).mono fun c t ⟨_, h⟩ => ⟨_, h⟩)
  | cphantomLet v exp body, f, r, h => by
    obtain ⟨body', hbody, h⟩ := bind_ok h
    cases h
    exact .cphantomLet v exp ((mapTail_ok body hbody).mono fun c t ⟨_, h⟩ => ⟨_, h⟩)
  | cnameForDebugger v body, f, r, h => by
    obtain ⟨body', hbody, h⟩ := bind_ok h
    cases h
    exact .cnameForDebugger v ((mapTail_ok body hbody).mono fun c t ⟨_, h⟩ => ⟨_, h⟩)
  | csequence e1 e2, f, r, h => by
    obtain ⟨e2', he2, h⟩ := bind_ok h
    cases h
    exact .csequence e1 ((mapTail_ok e2 he2).mono fun c t ⟨_, h⟩ => ⟨_, h⟩)
  | cifthenelse cond ifso ifnot, f, r, h => by
    obtain ⟨ifso', hso, h⟩ := bind_ok h
    obtain ⟨ifnot', hnot, h⟩ := bind_ok h
    cases h
    exact .cifthenelse cond ((mapTail_ok ifso hso).mono fun c t ⟨_, h⟩ => ⟨_, h⟩)
      ((mapTail_ok ifnot hnot).mono fun c t ⟨_, h⟩ => ⟨_, h⟩)
  | cswitch scrutinee cases' actions, f, r, h => by
    obtain ⟨actions', hactions, h⟩ := bind_ok h
    cases h
    exact .cswitch scrutinee cases'
      ((mapTailList_ok actions hactions).mono fun c t ⟨_, h⟩ => ⟨_, h⟩)
  | ccatch flag handlers body, f, r, h => by
    obtain ⟨handlers', hhandlers, h⟩ := bind_ok h
    obtain ⟨body', hbody, h⟩ := bind_ok h
    cases h
    exact .ccatch flag ((mapTailHandlers_ok handlers hhandlers).mono fun c t ⟨_, h⟩ => ⟨_, h⟩)
      ((mapTail_ok body hbody).mono fun c t ⟨_, h⟩ => ⟨_, h⟩)

theorem mapTailList_ok {ε : Type} : (es : List (Expression O)) →
    {f : (c : Expression O) → c.weight ≤ weightList es → Except ε (Expression O)} →
    {rs : List (Expression O)} → mapTailList es f = .ok rs →
    RetailedList (TailTo (weightList es) f) es rs
  | [], f, rs, h => by cases h; exact .nil
  | e :: es, f, rs, h => by
    rw [mapTailList] at h
    obtain ⟨e', he, h⟩ := bind_ok h
    obtain ⟨es', hes, h⟩ := bind_ok h
    cases h
    exact .cons ((mapTail_ok e he).mono fun c t ⟨_, h⟩ => ⟨_, h⟩)
      ((mapTailList_ok es hes).mono fun c t ⟨_, h⟩ => ⟨_, h⟩)

theorem mapTailHandlers_ok {ε : Type} : (hs : List (StaticHandler (Expression O))) →
    {f : (c : Expression O) → c.weight ≤ weightHandlers hs → Except ε (Expression O)} →
    {rs : List (StaticHandler (Expression O))} → mapTailHandlers hs f = .ok rs →
    RetailedHandlers (TailTo (weightHandlers hs) f) hs rs
  | [], f, rs, h => by cases h; exact .nil
  | ⟨label, params, body, isCold⟩ :: hs, f, rs, h => by
    rw [mapTailHandlers] at h
    obtain ⟨body', hbody, h⟩ := bind_ok h
    obtain ⟨hs', hhs, h⟩ := bind_ok h
    cases h
    exact .cons label params isCold ((mapTail_ok body hbody).mono fun c t ⟨_, h⟩ => ⟨_, h⟩)
      ((mapTailHandlers_ok hs hhs).mono fun c t ⟨_, h⟩ => ⟨_, h⟩)

end

mutual

/-- Tails that do not grow make an expression that does not grow. -/
theorem Retailed.weight_le (hP : ∀ c t, P c t → t.weight ≤ c.weight) : {e e' : Expression O} →
    Retailed P e e' → e'.weight ≤ e.weight
  | _, _, .tail h => hP _ _ h
  | _, _, .cexit .. => Nat.le_refl _
  | _, _, .cinvalid .. => Nat.le_refl _
  | _, _, .clet v exp h => by
    have := h.weight_le hP
    simp only [weight]
    omega
  | _, _, .cphantomLet v d h => h.weight_le hP
  | _, _, .cnameForDebugger v h => h.weight_le hP
  | _, _, .csequence e1 h => by
    have := h.weight_le hP
    simp only [weight]
    omega
  | _, _, .cifthenelse cond h h' => by
    have := h.weight_le hP
    have := h'.weight_le hP
    simp only [weight]
    omega
  | _, _, .cswitch scrutinee cases' h => by
    have := h.weight_le hP
    simp only [weight]
    omega
  | _, _, .ccatch flag h h' => by
    have := h.weight_le hP
    have := h'.weight_le hP
    simp only [weight]
    omega

theorem RetailedList.weight_le (hP : ∀ c t, P c t → t.weight ≤ c.weight) :
    {es es' : List (Expression O)} → RetailedList P es es' → weightList es' ≤ weightList es
  | _, _, .nil => Nat.le_refl _
  | _, _, .cons h hs => by
    have := h.weight_le hP
    have := hs.weight_le hP
    simp only [weightList]
    omega

theorem RetailedHandlers.weight_le (hP : ∀ c t, P c t → t.weight ≤ c.weight) :
    {hs hs' : List (StaticHandler (Expression O))} → RetailedHandlers P hs hs' →
    weightHandlers hs' ≤ weightHandlers hs
  | _, _, .nil => Nat.le_refl _
  | _, _, .cons label params isCold h hs => by
    have := h.weight_le hP
    have := hs.weight_le hP
    simp only [weightHandlers]
    omega

end

end

variable {e k c : Expression O}

theorem Retailed.const {P : Expression O → Expression O → Prop} {e' : Expression O}
    (h : Retailed P e e') (hP : ∀ c t, P c t → (getConst (core c)).isSome → t = c)
    (hk : (getConst (core e)).isSome) : e' = e := by
  induction e using core_induction generalizing e' with
  | phantom v d body ih =>
    cases h with
    | tail h => exact hP _ _ h hk
    | cphantomLet v d h => rw [ih h hk]
  | named v body ih =>
    cases h with
    | tail h => exact hP _ _ h hk
    | cnameForDebugger v h => rw [ih h hk]
  | other e h1 h2 =>
    cases h with
    | tail h => exact hP _ _ h hk
    | cphantomLet v d h => exact absurd rfl (h1 v d _)
    | cnameForDebugger v h => exact absurd rfl (h2 v _)
    | _ => cases hk

theorem tail_core (e : Expression O) : (core e).tail = e.tail := by
  induction e using core_induction with
  | phantom v exp body ih | named v body ih => rw [core, ih]; rfl
  | other e h1 h2 => rw [core] <;> assumption

variable {op : Operation O}

theorem tail_eq_of_core {args : List (Expression O)}
    (h : core e = cop op args) : e.tail = cop op args := by
  rw [← tail_core, h]
  rfl

theorem getConst_tail_of_core (hk : (getConst (core k)).isSome) : getConst k.tail ≠ none := by
  rw [← tail_core]
  generalize core k = k' at hk
  cases k' with
  | cconstInt n | cconstNatint n => exact nofun
  | _ => cases hk

/-! ## §2 Outcomes -/

namespace Machine

variable {M : Machine O X σ} {R : Nativeint → Nativeint → Prop} {flag : CcatchFlag}
  {hs hs' : List (StaticHandler (Expression O))} {env env' : Bindings X} {l : StaticLabel}
  {args : List (Value X)} {s s' s₁ : σ} {o : Outcome X} {h : StaticHandler (Expression O)}

theorem Relates.value (h : M.Relates R c e) {a : Nativeint}
    (hc : M.Evaluates c env s (.value (.word a)) s') :
    ∃ b, M.Evaluates e env s (.value (.word b)) s' ∧ R a b := by
  obtain ⟨o', he, hrel⟩ := h _ _ _ _ hc fun x hx => nomatch hx
  cases hrel with
  | word hab => exact ⟨_, he, hab⟩

theorem Relates.exit (h : M.Relates R c e) {l : ExitLabel}
    (hc : M.Evaluates c env s (.exit l args) s') : M.Evaluates e env s (.exit l args) s' := by
  obtain ⟨o', he, hrel⟩ := h _ _ _ _ hc fun x hx => nomatch hx
  cases hrel with
  | exit => exact he

theorem handles_none (hfind : hs.find? (fun h => h.label = l) = none) :
    M.Handles flag hs env l args s (.exit (.lbl l) args) s :=
  ⟨1, by rw [handle, hfind]⟩

theorem handles_some (hfind : hs.find? (fun h => h.label = l) = some h)
    (hbind : bindParams env h.params args = some env') (hbody : M.Evaluates h.body env' s o s')
    (ho : flag = .recursive → ∀ l args, o ≠ .exit (.lbl l) args) :
    M.Handles flag hs env l args s o s' := by
  obtain ⟨fuel, hbody⟩ := hbody
  refine ⟨fuel + 1, ?_⟩
  rw [handle, hfind]
  simp only [hbind, hbody]
  split
  · rename_i l' args' s₁ heq
    cases heq
    rw [if_neg fun hflag => ho hflag _ _ rfl]
  · rfl

theorem handles_again (hflag : flag = .recursive) (hfind : hs.find? (fun h => h.label = l) = some h)
    (hbind : bindParams env h.params args = some env') {l' : StaticLabel} {args' : List (Value X)}
    (hbody : M.Evaluates h.body env' s (.exit (.lbl l') args') s₁)
    (hagain : M.Handles flag hs env l' args' s₁ o s') : M.Handles flag hs env l args s o s' := by
  obtain ⟨fuel, hbody⟩ := hbody
  obtain ⟨fuel', hagain⟩ := hagain
  refine ⟨max fuel fuel' + 1, ?_⟩
  rw [handle, hfind]
  simp only [hbind, M.run_mono (Nat.le_max_left fuel fuel') hbody, if_pos hflag]
  exact M.handle_mono (Nat.le_max_right _ _) hagain

/-- Handlers for the same exits, with the same parameters and related bodies. -/
def RelatesHandlers (M : Machine O X σ) (R : Nativeint → Nativeint → Prop)
    (hs hs' : List (StaticHandler (Expression O))) : Prop :=
  ∀ l, match hs.find? fun h => h.label = l with
    | none => hs'.find? (fun h => h.label = l) = none
    | some h => ∃ h', hs'.find? (fun h => h.label = l) = some h' ∧ h'.params = h.params ∧
      M.Relates R h.body h'.body

/-- Every round of a recursive handler is related; the induction is on the fuel. -/
theorem RelatesHandlers.handle (hhs : M.RelatesHandlers R hs hs') (fuel : Nat)
    (hrun : M.handle fuel flag hs env l args s = some (o, s')) (hn : o.Narrow) :
    ∃ o', M.Handles flag hs' env l args s o' s' ∧ Outcome.Rel R o o' := by
  induction fuel generalizing l args s with
  | zero => cases hrun
  | succ fuel ih =>
    rw [Machine.handle] at hrun
    have hl := hhs l
    cases hfind : hs.find? fun h => h.label = l with
    | none =>
      rw [hfind] at hrun hl
      cases hrun
      exact ⟨_, handles_none hl, .exit _ _⟩
    | some h =>
      rw [hfind] at hrun hl
      obtain ⟨h', hfind', hparams, hbody⟩ := hl
      dsimp only at hrun
      cases hbind : bindParams env h.params args with
      | none => rw [hbind] at hrun; cases hrun
      | some env' =>
        rw [hbind] at hrun
        dsimp only at hrun
        rw [← hparams] at hbind
        cases hb : M.run fuel h.body env' s with
        | none => rw [hb] at hrun; cases hrun
        | some p =>
          rw [hb] at hrun
          obtain ⟨o₁, s₁⟩ := p
          -- Only an exit of a recursive handler goes round.
          by_cases hagain : flag = .recursive ∧ ∃ l args, o₁ = .exit (.lbl l) args
          · obtain ⟨hflag, l', args', rfl⟩ := hagain
            dsimp only at hrun
            rw [if_pos hflag] at hrun
            obtain ⟨o', ho', hrel⟩ := ih hrun
            exact ⟨o', handles_again hflag hfind' hbind (hbody.exit ⟨fuel, hb⟩) ho', hrel⟩
          have hrun : o₁ = o ∧ s₁ = s' := by
            rcases o₁ with v | ⟨_ | l', args'⟩
            · cases hrun; exact ⟨rfl, rfl⟩
            · cases hrun; exact ⟨rfl, rfl⟩
            dsimp only at hrun
            rw [if_neg fun hflag => hagain ⟨hflag, l', args', rfl⟩] at hrun
            cases hrun
            exact ⟨rfl, rfl⟩
          obtain ⟨rfl, rfl⟩ := hrun
          obtain ⟨o', ho', hrel⟩ := hbody _ _ _ _ ⟨fuel, hb⟩ hn
          refine ⟨o', handles_some hfind' hbind ho' fun hflag l' args' heq => ?_, hrel⟩
          subst heq
          cases hrel with
          | exit => exact hagain ⟨hflag, _, _, rfl⟩

variable {e e' : Expression O} {P : Expression O → Expression O → Prop}

theorem relates_ccatch {body body' : Expression O} (hhs : M.RelatesHandlers R hs hs')
    (hbody : M.Relates R body body') :
    M.Relates R (ccatch flag hs body) (ccatch flag hs' body') := by
  intro env s o s' hc hn
  rcases evaluates_ccatch.1 hc with ⟨hb, hne⟩ | ⟨l, args, s₁, hb, fuel, hrun⟩
  · obtain ⟨o', ho', hrel⟩ := hbody _ _ _ _ hb hn
    refine ⟨o', evaluates_ccatch.2 (.inl ⟨ho', fun l args heq => ?_⟩), hrel⟩
    subst heq
    cases hrel with
    | exit => exact hne _ _ rfl
  · obtain ⟨o', ho', hrel⟩ := hhs.handle fuel hrun hn
    exact ⟨o', evaluates_ccatch.2 (.inr ⟨l, args, s₁, hbody.exit hb, ho'⟩), hrel⟩

theorem relates_cifthenelse {cond ifso ifso' ifnot ifnot' : Expression O}
    (hso : M.Relates R ifso ifso') (hnot : M.Relates R ifnot ifnot') :
    M.Relates R (cifthenelse cond ifso ifnot) (cifthenelse cond ifso' ifnot') := by
  intro env s o s' hc hn
  rcases evaluates_cifthenelse.1 hc with ⟨w, s₁, hcond, hbranch⟩ | ⟨l, args, rfl, hcond⟩
  · have hrel : M.Relates R (if w ≠ 0 then ifso else ifnot) (if w ≠ 0 then ifso' else ifnot') := by
      split
      · exact hso
      · exact hnot
    obtain ⟨o', ho', hrel⟩ := hrel _ _ _ _ hbranch hn
    exact ⟨o', evaluates_cifthenelse.2 (.inl ⟨w, s₁, hcond, ho'⟩), hrel⟩
  · exact ⟨_, evaluates_cifthenelse.2 (.inr ⟨l, args, rfl, hcond⟩), .exit _ _⟩

theorem relates_cswitch {scrutinee : Expression O} {cases' : List Nat}
    {actions actions' : List (Expression O)}
    (hactions : ∀ (i : Nat) a, actions[i]? = some a → ∃ a',
      actions'[i]? = some a' ∧ M.Relates R a a') :
    M.Relates R (cswitch scrutinee cases' actions) (cswitch scrutinee cases' actions') := by
  intro env s o s' hc hn
  rcases evaluates_cswitch.1 hc with ⟨w, s₁, i, a, hscr, hi, ha, heval⟩ | ⟨l, args, rfl, hscr⟩
  · obtain ⟨a', ha', hrel⟩ := hactions i a ha
    obtain ⟨o', ho', hrel⟩ := hrel _ _ _ _ heval hn
    exact ⟨o', evaluates_cswitch.2 (.inl ⟨w, s₁, i, a', hscr, hi, ha', ho'⟩), hrel⟩
  · exact ⟨_, evaluates_cswitch.2 (.inr ⟨l, args, rfl, hscr⟩), .exit _ _⟩

mutual

/-- Related tails make related expressions. -/
theorem relates_of_retailed (hP : ∀ c t, P c t → M.Relates R c t) : {e e' : Expression O} →
    Retailed P e e' → M.Relates R e e'
  | _, _, .tail h => hP _ _ h
  | _, _, .cexit label args traps => fun env s o s' hc hn => by
    rcases o with v | ⟨l, vs⟩
    · obtain ⟨_ | fuel, hc⟩ := hc
      · cases hc
      · rw [run] at hc; split at hc <;> cases hc
    · exact ⟨_, hc, .exit _ _⟩
  | _, _, .cinvalid message symbol => fun env s o s' hc hn => by
    obtain ⟨_ | fuel, hc⟩ := hc <;> cases hc
  | _, _, .clet v exp h => fun env s o s' hc hn => by
    rcases evaluates_clet.1 hc with ⟨x, s₁, hexp, hbody⟩ | ⟨l, args, rfl, hexp⟩
    · obtain ⟨o', ho', hrel⟩ := relates_of_retailed hP h _ _ _ _ hbody hn
      exact ⟨o', evaluates_clet.2 (.inl ⟨x, s₁, hexp, ho'⟩), hrel⟩
    · exact ⟨_, evaluates_clet.2 (.inr ⟨l, args, rfl, hexp⟩), .exit _ _⟩
  | _, _, .cphantomLet v d h => fun env s o s' hc hn => by
    obtain ⟨o', ho', hrel⟩ := relates_of_retailed hP h _ _ _ _ (evaluates_cphantomLet.1 hc) hn
    exact ⟨o', evaluates_cphantomLet.2 ho', hrel⟩
  | _, _, .cnameForDebugger v h => fun env s o s' hc hn => by
    obtain ⟨o', ho', hrel⟩ := relates_of_retailed hP h _ _ _ _ (evaluates_cnameForDebugger.1 hc) hn
    exact ⟨o', evaluates_cnameForDebugger.2 ho', hrel⟩
  | _, _, .csequence e1 h => fun env s o s' hc hn => by
    rcases evaluates_csequence.1 hc with ⟨x, s₁, he1, he2⟩ | ⟨l, args, rfl, he1⟩
    · obtain ⟨o', ho', hrel⟩ := relates_of_retailed hP h _ _ _ _ he2 hn
      exact ⟨o', evaluates_csequence.2 (.inl ⟨x, s₁, he1, ho'⟩), hrel⟩
    · exact ⟨_, evaluates_csequence.2 (.inr ⟨l, args, rfl, he1⟩), .exit _ _⟩
  | _, _, .cifthenelse cond h h' =>
    relates_cifthenelse (relates_of_retailed hP h) (relates_of_retailed hP h')
  | _, _, .cswitch scrutinee cases' h => relates_cswitch (relates_of_retailedList hP h)
  | _, _, .ccatch flag h h' =>
    relates_ccatch (relates_of_retailedHandlers hP h) (relates_of_retailed hP h')

theorem relates_of_retailedList (hP : ∀ c t, P c t → M.Relates R c t) :
    {es es' : List (Expression O)} → RetailedList P es es' →
    ∀ (i : Nat) a, es[i]? = some a → ∃ a', es'[i]? = some a' ∧ M.Relates R a a'
  | _, _, .nil, i, a, ha => by cases ha
  | _, _, .cons h hs, 0, a, ha => by
    cases ha
    exact ⟨_, rfl, relates_of_retailed hP h⟩
  | _, _, .cons h hs, i + 1, a, ha => relates_of_retailedList hP hs i a ha

theorem relates_of_retailedHandlers (hP : ∀ c t, P c t → M.Relates R c t) :
    {hs hs' : List (StaticHandler (Expression O))} → RetailedHandlers P hs hs' →
    M.RelatesHandlers R hs hs'
  | _, _, .nil, l => rfl
  | _, _, .cons label params isCold h hs, l => by
    have hl := relates_of_retailedHandlers hP hs l
    rw [List.find?_cons, List.find?_cons]
    by_cases heq : label = l
    · simp only [heq]; exact ⟨_, rfl, rfl, relates_of_retailed hP h⟩
    · simp only [heq]; exact hl

end

end Machine

/-! ## §3 Hereditary properties -/

/-- A property that the tails of an expression inherit, and that an expression
keeps when its tails keep it. -/
structure HereditaryTails (Φ : Expression O → Prop) : Prop extends Hereditary Φ where
  cifthenelse : ∀ {cond ifso ifnot}, Φ (cifthenelse cond ifso ifnot) →
    Φ ifso ∧ Φ ifnot ∧ ∀ {t t'}, Φ t → Φ t' → Φ (cifthenelse cond t t')
  cswitch : ∀ {scrutinee cases actions}, Φ (cswitch scrutinee cases actions) →
    (∀ a ∈ actions, Φ a) ∧ ∀ {ts}, (∀ t ∈ ts, Φ t) → Φ (cswitch scrutinee cases ts)
  ccatch : ∀ {flag hs body}, Φ (ccatch flag hs body) →
    (∀ h ∈ hs, Φ h.body) ∧ Φ body ∧ ∀ {hs' t}, hs'.map (·.params) = hs.map (·.params) →
      (∀ h ∈ hs', Φ h.body) → Φ t → Φ (ccatch flag hs' t)

section

variable {P : Expression O → Expression O → Prop} {Φ : Expression O → Prop}

mutual

/-- Only tails that have the property are replaced. -/
theorem Retailed.inherit (hΦ : HereditaryTails Φ) : {e e' : Expression O} → Retailed P e e' →
    Φ e → Retailed (fun c t => P c t ∧ Φ c) e e'
  | _, _, .tail h, he => .tail ⟨h, he⟩
  | _, _, .cexit label args traps, _ => .cexit label args traps
  | _, _, .cinvalid message symbol, _ => .cinvalid message symbol
  | _, _, .clet v exp h, he => .clet v exp (h.inherit hΦ (hΦ.clet he).1)
  | _, _, .cphantomLet v d h, he => .cphantomLet v d (h.inherit hΦ (hΦ.cphantomLet.1 he))
  | _, _, .cnameForDebugger v h, he =>
    .cnameForDebugger v (h.inherit hΦ (hΦ.cnameForDebugger.1 he))
  | _, _, .csequence e1 h, he => .csequence e1 (h.inherit hΦ (hΦ.csequence.1 he).2)
  | _, _, .cifthenelse cond h h', he => .cifthenelse cond (h.inherit hΦ (hΦ.cifthenelse he).1)
    (h'.inherit hΦ (hΦ.cifthenelse he).2.1)
  | _, _, .cswitch scrutinee cases' h, he =>
    .cswitch scrutinee cases' (h.inherit hΦ (hΦ.cswitch he).1)
  | _, _, .ccatch flag h h', he =>
    .ccatch flag (h.inherit hΦ (hΦ.ccatch he).1) (h'.inherit hΦ (hΦ.ccatch he).2.1)

theorem RetailedList.inherit (hΦ : HereditaryTails Φ) : {es es' : List (Expression O)} →
    RetailedList P es es' → (∀ e ∈ es, Φ e) → RetailedList (fun c t => P c t ∧ Φ c) es es'
  | _, _, .nil, _ => .nil
  | _, _, .cons h hs, he => .cons (h.inherit hΦ (he _ mem_cons_self))
    (hs.inherit hΦ fun e h => he e (mem_cons_of_mem _ h))

theorem RetailedHandlers.inherit (hΦ : HereditaryTails Φ) :
    {hs hs' : List (StaticHandler (Expression O))} → RetailedHandlers P hs hs' →
    (∀ h ∈ hs, Φ h.body) → RetailedHandlers (fun c t => P c t ∧ Φ c) hs hs'
  | _, _, .nil, _ => .nil
  | _, _, .cons label params isCold h hs, he => .cons label params isCold
    (h.inherit hΦ (he _ mem_cons_self)) (hs.inherit hΦ fun e h => he e (mem_cons_of_mem _ h))

end

mutual

theorem Retailed.hereditary (hΦ : HereditaryTails Φ) (hP : ∀ c t, P c t → Φ c → Φ t) :
    {e e' : Expression O} → Retailed P e e' → Φ e → Φ e'
  | _, _, .tail h, he => hP _ _ h he
  | _, _, .cexit .., he => he
  | _, _, .cinvalid .., he => he
  | _, _, .clet v exp h, he => (hΦ.clet he).2 (h.hereditary hΦ hP (hΦ.clet he).1)
  | _, _, .cphantomLet v d h, he =>
    hΦ.cphantomLet.2 (h.hereditary hΦ hP (hΦ.cphantomLet.1 he))
  | _, _, .cnameForDebugger v h, he =>
    hΦ.cnameForDebugger.2 (h.hereditary hΦ hP (hΦ.cnameForDebugger.1 he))
  | _, _, .csequence e1 h, he =>
    hΦ.csequence.2 ⟨(hΦ.csequence.1 he).1, h.hereditary hΦ hP (hΦ.csequence.1 he).2⟩
  | _, _, .cifthenelse cond h h', he => (hΦ.cifthenelse he).2.2
    (h.hereditary hΦ hP (hΦ.cifthenelse he).1) (h'.hereditary hΦ hP (hΦ.cifthenelse he).2.1)
  | _, _, .cswitch scrutinee cases' h, he =>
    (hΦ.cswitch he).2 (h.hereditary hΦ hP (hΦ.cswitch he).1)
  | _, _, .ccatch flag h h', he => (hΦ.ccatch he).2.2 h.params
    (h.hereditary hΦ hP (hΦ.ccatch he).1) (h'.hereditary hΦ hP (hΦ.ccatch he).2.1)

theorem RetailedList.hereditary (hΦ : HereditaryTails Φ) (hP : ∀ c t, P c t → Φ c → Φ t) :
    {es es' : List (Expression O)} → RetailedList P es es' → (∀ e ∈ es, Φ e) → ∀ e ∈ es', Φ e
  | _, _, .nil, he => he
  | _, _, .cons h hs, he => List.forall_mem_cons.2 ⟨h.hereditary hΦ hP (he _ mem_cons_self),
      hs.hereditary hΦ hP fun e h => he e (mem_cons_of_mem _ h)⟩

theorem RetailedHandlers.hereditary (hΦ : HereditaryTails Φ) (hP : ∀ c t, P c t → Φ c → Φ t) :
    {hs hs' : List (StaticHandler (Expression O))} → RetailedHandlers P hs hs' →
    (∀ h ∈ hs, Φ h.body) → ∀ h ∈ hs', Φ h.body
  | _, _, .nil, he => he
  | _, _, .cons label params isCold h hs, he => List.forall_mem_cons.2
    ⟨h.hereditary hΦ hP (he _ mem_cons_self),
      hs.hereditary hΦ hP fun e h => he e (mem_cons_of_mem _ h)⟩

theorem RetailedHandlers.params : {hs hs' : List (StaticHandler (Expression O))} →
    RetailedHandlers P hs hs' → hs'.map (·.params) = hs.map (·.params)
  | _, _, .nil => rfl
  | _, _, .cons _ params _ _ hs => congrArg (params :: ·) hs.params

end

variable {ε : Type}

theorem bind_pure_ne_error {α β : Type} {x : Except ε α} {f : α → β} (h : ∀ err, x ≠ .error err)
    (err : ε) : (do let a ← x; pure (f a) : Except ε β) ≠ .error err := by
  cases x with
  | ok a => exact nofun
  | error err' => exact absurd rfl (h err')

mutual

/-- Where no tail fails, the whole does not. -/
theorem mapTail_ne_error (hΦ : HereditaryTails Φ) : (e : Expression O) →
    {f : (c : Expression O) → c.weight ≤ e.weight → Except ε (Expression O)} →
    (∀ c h err, Φ c → f c h ≠ .error err) → Φ e → ∀ err, mapTail e f ≠ .error err
  | cconstInt n, f, hf, he, err => hf _ _ err he
  | cconstNatint n, f, hf, he, err => hf _ _ err he
  | cconst l, f, hf, he, err => hf _ _ err he
  | cconstSymbol sym, f, hf, he, err => hf _ _ err he
  | cvar v, f, hf, he, err => hf _ _ err he
  | ctuple exprs, f, hf, he, err => hf _ _ err he
  | cop op args, f, hf, he, err => hf _ _ err he
  | cexit label args traps, f, hf, he, err => nofun
  | cinvalid message symbol, f, hf, he, err => nofun
  | clet v exp body, f, hf, he, err => bind_pure_ne_error
    (mapTail_ne_error hΦ body (fun c _ err hc => hf c _ err hc) (hΦ.clet he).1) err
  | cphantomLet v exp body, f, hf, he, err => bind_pure_ne_error
    (mapTail_ne_error hΦ body (fun c _ err hc => hf c _ err hc) (hΦ.cphantomLet.1 he)) err
  | cnameForDebugger v body, f, hf, he, err => bind_pure_ne_error
    (mapTail_ne_error hΦ body (fun c _ err hc => hf c _ err hc) (hΦ.cnameForDebugger.1 he)) err
  | csequence e1 e2, f, hf, he, err => bind_pure_ne_error
    (mapTail_ne_error hΦ e2 (fun c _ err hc => hf c _ err hc) (hΦ.csequence.1 he).2) err
  | cifthenelse cond ifso ifnot, f, hf, he, err => by
    have hso := mapTail_ne_error hΦ ifso
      (fun c _ err hc => hf c (by simp only [weight]; omega) err hc)
      (hΦ.cifthenelse he).1
    have hnot := mapTail_ne_error hΦ ifnot
      (fun c _ err hc => hf c (by simp only [weight]; omega) err hc) (hΦ.cifthenelse he).2.1
    rw [mapTail]
    obtain ⟨ifso', hifso⟩ := ok_of_ne_error hso
    rw [hifso]
    exact bind_pure_ne_error hnot err
  | cswitch scrutinee cases' actions, f, hf, he, err => bind_pure_ne_error
    (mapTailList_ne_error hΦ actions (fun c _ err hc => hf c _ err hc) (hΦ.cswitch he).1) err
  | ccatch flag handlers body, f, hf, he, err => by
    have hhandlers := mapTailHandlers_ne_error hΦ handlers
      (fun c _ err hc => hf c (by simp only [weight]; omega) err hc) (hΦ.ccatch he).1
    have hbody := mapTail_ne_error hΦ body
      (fun c _ err hc => hf c (by simp only [weight]; omega) err hc) (hΦ.ccatch he).2.1
    rw [mapTail]
    obtain ⟨handlers', h⟩ := ok_of_ne_error hhandlers
    rw [h]
    exact bind_pure_ne_error hbody err

theorem mapTailList_ne_error (hΦ : HereditaryTails Φ) : (es : List (Expression O)) →
    {f : (c : Expression O) → c.weight ≤ weightList es → Except ε (Expression O)} →
    (∀ c h err, Φ c → f c h ≠ .error err) → (∀ e ∈ es, Φ e) → ∀ err, mapTailList es f ≠ .error err
  | [], f, hf, he, err => nofun
  | e :: es, f, hf, he, err => by
    have he' := mapTail_ne_error hΦ e
      (fun c _ err hc => hf c (by simp only [weightList]; omega) err hc) (he e mem_cons_self)
    have hes := mapTailList_ne_error hΦ es
      (fun c _ err hc => hf c (by simp only [weightList]; omega) err hc)
      fun e h => he e (mem_cons_of_mem _ h)
    rw [mapTailList]
    obtain ⟨e', h⟩ := ok_of_ne_error he'
    rw [h]
    exact bind_pure_ne_error hes err

theorem mapTailHandlers_ne_error (hΦ : HereditaryTails Φ) :
    (hs : List (StaticHandler (Expression O))) →
    {f : (c : Expression O) → c.weight ≤ weightHandlers hs → Except ε (Expression O)} →
    (∀ c h err, Φ c → f c h ≠ .error err) → (∀ h ∈ hs, Φ h.body) →
    ∀ err, mapTailHandlers hs f ≠ .error err
  | [], f, hf, he, err => nofun
  | ⟨label, params, body, isCold⟩ :: hs, f, hf, he, err => by
    have hbody := mapTail_ne_error hΦ body
      (fun c _ err hc => hf c (by simp only [weightHandlers]; omega) err hc)
      (he _ mem_cons_self)
    have hhs := mapTailHandlers_ne_error hΦ hs
      (fun c _ err hc => hf c (by simp only [weightHandlers]; omega) err hc)
      fun h hh => he h (mem_cons_of_mem _ hh)
    rw [mapTailHandlers]
    obtain ⟨body', h⟩ := ok_of_ne_error hbody
    rw [h]
    exact bind_pure_ne_error hhs err

end

end

/-! ## §4 Operations below the tails -/

section

variable (into : Operation O → Bool) (P : Operation O → List (Expression O) → Prop)

mutual

/-- `P` holds of the operations in the tails and in what comes before a tail in
a sequence, and of those among the operands of operations to go `into`. -/
def Throughout : Expression O → Prop
  | clet _ _ body => Throughout body
  | cphantomLet _ _ body => Throughout body
  | cnameForDebugger _ body => Throughout body
  | csequence e1 e2 => Throughout e1 ∧ Throughout e2
  | cifthenelse _ ifso ifnot => Throughout ifso ∧ Throughout ifnot
  | cswitch _ _ actions => ThroughoutList actions
  | ccatch _ handlers body => ThroughoutHandlers handlers ∧ Throughout body
  | cop op args => P op args ∧ (into op = true → ThroughoutList args)
  | _ => True

def ThroughoutList : List (Expression O) → Prop
  | [] => True
  | e :: es => Throughout e ∧ ThroughoutList es

def ThroughoutHandlers : List (StaticHandler (Expression O)) → Prop
  | [] => True
  | ⟨_, _, body, _⟩ :: hs => Throughout body ∧ ThroughoutHandlers hs

end

variable {into P}

theorem throughoutList_iff {es : List (Expression O)} :
    ThroughoutList into P es ↔ ∀ e ∈ es, Throughout into P e := by
  induction es with
  | nil => simp [ThroughoutList]
  | cons e es ih => simp [ThroughoutList, ih]

theorem throughoutHandlers_iff {hs : List (StaticHandler (Expression O))} :
    ThroughoutHandlers into P hs ↔ ∀ h ∈ hs, Throughout into P h.body := by
  induction hs with
  | nil => simp [ThroughoutHandlers]
  | cons h hs ih => simp [ThroughoutHandlers, ih]

theorem throughout_core : Throughout into P (core e) ↔ Throughout into P e := by
  induction e using core_induction with
  | phantom v exp body ih | named v body ih => rw [core, ih, Throughout]
  | other e h1 h2 => rw [core] <;> assumption

theorem throughout_const (hk : (getConst (core k)).isSome) : Throughout into P k := by
  rw [← throughout_core]
  generalize core k = k' at hk
  cases k' with
  | cconstInt n | cconstNatint n => trivial
  | _ => cases hk

theorem throughout_cop2 {a b : Expression O} (hop : into op = true) :
    Throughout into P (cop op [a, b]) ↔
      P op [a, b] ∧ Throughout into P a ∧ Throughout into P b := by
  simp [Throughout, ThroughoutList, hop]

theorem hereditaryTails_throughout (hinto : ∀ op, op.isWord = true → into op = true)
    (hright : ∀ op a k, op.isWord = true → (getConst (core k)).isSome → P op [a, k])
    (hleft : ∀ op a k, op.isWord = true → (getConst (core k)).isSome → P op [k, a])
    (hload : ∀ ch ch' m at' args, P (.cload ch m at') args → P (.cload ch' m at') args)
    (hinto' : ∀ ch ch' m at', into (.cload ch m at') = into (.cload ch' m at')) :
    HereditaryTails (Throughout into P) where
  const hk := throughout_const (by rwa [core_const hk])
  cop_const := by
    intro op a k hop hk
    rw [throughout_cop2 (hinto op hop)]
    exact ⟨fun h => h.2.1, fun h => ⟨hright op a k hop hk, h, throughout_const hk⟩⟩
  const_cop := by
    intro op a k hop hk
    rw [throughout_cop2 (hinto op hop)]
    exact ⟨fun h => h.2.2, fun h => ⟨hleft op a k hop hk, throughout_const hk, h⟩⟩
  clet h := ⟨h, fun ht => ht⟩
  cphantomLet := Iff.rfl
  cnameForDebugger := Iff.rfl
  csequence := Iff.rfl
  cload := by
    intro ch ch' m at' args h
    exact ⟨hload _ _ _ _ _ h.1, fun hop => h.2 (hinto' ch ch' m at' ▸ hop)⟩
  cifthenelse h := ⟨h.1, h.2, fun ht ht' => ⟨ht, ht'⟩⟩
  cswitch h := ⟨throughoutList_iff.1 h, fun ht => throughoutList_iff.2 ht⟩
  ccatch h := ⟨throughoutHandlers_iff.1 h.1, h.2,
    fun _ hhs ht => ⟨throughoutHandlers_iff.2 hhs, ht⟩⟩

end

/-- A property of expressions whose operations may get other operands that have it. -/
structure Structural (Φ : Expression O → Prop) : Prop extends HereditaryTails Φ where
  cop2 : ∀ {op a b}, op.isWord = true → Φ (cop op [a, b]) →
    Φ a ∧ Φ b ∧ ∀ {a' b'}, Φ a' → Φ b' → Φ (cop op [a', b'])

theorem mem_vars_of_params {hs hs' : List (StaticHandler (Expression O))} {Q : BackendVar → Prop}
    (hparams : hs'.map (·.params) = hs.map (·.params)) (h : ∀ v ∈ varsHandlers hs, Q v)
    (h' : ∀ h ∈ hs', ∀ v ∈ h.body.vars, Q v) : ∀ v ∈ varsHandlers hs', Q v := by
  induction hs' generalizing hs with
  | nil => exact nofun
  | cons d hs' ih =>
    cases hs with
    | nil => cases hparams
    | cons d' hs =>
      simp only [List.map_cons, List.cons.injEq] at hparams
      simp only [varsHandlers, mem_append] at h ⊢
      rintro v ((hv | hv) | hv)
      · rw [hparams.1] at hv; exact h v (.inl (.inl hv))
      · exact h' d mem_cons_self v hv
      · exact ih hparams.2 (fun v hv => h v (.inr hv))
          (fun h hh => h' h (mem_cons_of_mem _ hh)) v hv

variable {v : BackendVar} {es : List (Expression O)}

theorem mem_varsList_iff : v ∈ varsList es ↔ ∃ e ∈ es, v ∈ e.vars := by
  induction es with
  | nil => simp [varsList]
  | cons e es ih => simp [varsList, ih]

theorem mem_bindersList_iff : v ∈ bindersList es ↔ ∃ e ∈ es, v ∈ e.binders := by
  induction es with
  | nil => simp [bindersList]
  | cons e es ih => simp [bindersList, ih]

theorem mem_bindersHandlers_iff {hs : List (StaticHandler (Expression O))} :
    v ∈ bindersHandlers hs ↔ ∃ h ∈ hs, v ∈ h.body.binders := by
  induction hs with
  | nil => simp [bindersHandlers]
  | cons h hs ih => simp [bindersHandlers, ih]

theorem structural_vars (Q : BackendVar → Prop) :
    Structural fun e : Expression O => ∀ v ∈ e.vars, Q v where
  toHereditary := hereditary_vars Q
  cop2 := by
    intro op a b _ h
    have hcop : ∀ a b : Expression O, (∀ v ∈ (cop op [a, b]).vars, Q v) ↔
        (∀ v ∈ a.vars, Q v) ∧ ∀ v ∈ b.vars, Q v := fun a b => by
      simp [vars, varsList, or_imp, forall_and]
    obtain ⟨ha, hb⟩ := (hcop a b).1 h
    exact ⟨ha, hb, fun ha hb => (hcop _ _).2 ⟨ha, hb⟩⟩
  cifthenelse := by
    intro cond ifso ifnot h
    have hif : ∀ a b : Expression O, (∀ v ∈ (cifthenelse cond a b).vars, Q v) ↔
        (∀ v ∈ cond.vars, Q v) ∧ (∀ v ∈ a.vars, Q v) ∧ ∀ v ∈ b.vars, Q v := fun a b => by
      simp [vars, or_imp, forall_and, and_assoc]
    obtain ⟨hcond, hso, hnot⟩ := (hif _ _).1 h
    exact ⟨hso, hnot, fun ht ht' => (hif _ _).2 ⟨hcond, ht, ht'⟩⟩
  cswitch := by
    intro scrutinee cases' actions h
    have hswitch : ∀ ts : List (Expression O), (∀ v ∈ (cswitch scrutinee cases' ts).vars, Q v) ↔
        (∀ v ∈ scrutinee.vars, Q v) ∧ ∀ v, (∃ t ∈ ts, v ∈ t.vars) → Q v := fun ts => by
      simp [vars, or_imp, forall_and, mem_varsList_iff]
    obtain ⟨hscrutinee, hactions⟩ := (hswitch _).1 h
    exact ⟨fun a ha v hv => hactions v ⟨a, ha, hv⟩,
      fun hts => (hswitch _).2 ⟨hscrutinee, fun v ⟨t, ht, hv⟩ => hts t ht v hv⟩⟩
  ccatch := by
    intro flag hs body h
    have hcatch : ∀ hs (t : Expression O), (∀ v ∈ (ccatch flag hs t).vars, Q v) ↔
        (∀ v ∈ varsHandlers hs, Q v) ∧ ∀ v ∈ t.vars, Q v := fun hs t => by
      simp [vars, or_imp, forall_and]
    obtain ⟨hhs, hbody⟩ := (hcatch _ _).1 h
    exact ⟨fun d hd v hv => hhs v (Machine.mem_varsHandlers hd hv), hbody,
      fun hparams hhs' ht => (hcatch _ _).2 ⟨mem_vars_of_params hparams hhs hhs', ht⟩⟩

theorem structural_binders (Q : BackendVar → Prop) :
    Structural fun e : Expression O => ∀ v ∈ e.binders, Q v where
  toHereditary := hereditary_binders Q
  cop2 := by
    intro op a b _ h
    have hcop : ∀ a b : Expression O, (∀ v ∈ (cop op [a, b]).binders, Q v) ↔
        (∀ v ∈ a.binders, Q v) ∧ ∀ v ∈ b.binders, Q v := fun a b => by
      simp [binders, bindersList, or_imp, forall_and]
    obtain ⟨ha, hb⟩ := (hcop a b).1 h
    exact ⟨ha, hb, fun ha hb => (hcop _ _).2 ⟨ha, hb⟩⟩
  cifthenelse := by
    intro cond ifso ifnot h
    have hif : ∀ a b : Expression O, (∀ v ∈ (cifthenelse cond a b).binders, Q v) ↔
        (∀ v ∈ cond.binders, Q v) ∧ (∀ v ∈ a.binders, Q v) ∧ ∀ v ∈ b.binders, Q v := fun a b => by
      simp [binders, or_imp, forall_and]
    obtain ⟨hcond, hso, hnot⟩ := (hif _ _).1 h
    exact ⟨hso, hnot, fun ht ht' => (hif _ _).2 ⟨hcond, ht, ht'⟩⟩
  cswitch := by
    intro scrutinee cases' actions h
    have hswitch : ∀ ts : List (Expression O), (∀ v ∈ (cswitch scrutinee cases' ts).binders, Q v) ↔
        (∀ v ∈ scrutinee.binders, Q v) ∧ ∀ v, (∃ t ∈ ts, v ∈ t.binders) → Q v := fun ts => by
      simp [binders, or_imp, forall_and, mem_bindersList_iff]
    obtain ⟨hscrutinee, hactions⟩ := (hswitch _).1 h
    exact ⟨fun a ha v hv => hactions v ⟨a, ha, hv⟩,
      fun hts => (hswitch _).2 ⟨hscrutinee, fun v ⟨t, ht, hv⟩ => hts t ht v hv⟩⟩
  ccatch := by
    intro flag hs body h
    have hcatch : ∀ hs (t : Expression O), (∀ v ∈ (ccatch flag hs t).binders, Q v) ↔
        (∀ v ∈ bindersHandlers hs, Q v) ∧ ∀ v ∈ t.binders, Q v := fun hs t => by
      simp [binders, or_imp, forall_and]
    obtain ⟨hhs, hbody⟩ := (hcatch _ _).1 h
    simp only [mem_bindersHandlers_iff] at hhs hcatch
    exact ⟨fun d hd v hv => hhs v ⟨d, hd, hv⟩, hbody,
      fun _ hhs' ht => (hcatch _ _).2 ⟨fun v ⟨d, hd, hv⟩ => hhs' d hd v hv, ht⟩⟩

theorem structural_confined {ok : Operation O → Bool}
    (hword : ∀ op, op.isWord = true → ok op = true)
    (hload : ∀ ch ch' m a, ok (.cload ch m a) = ok (.cload ch' m a)) :
    Structural fun e : Expression O => e.confined ok = true where
  toHereditary := hereditary_confined hword hload
  cop2 := by
    intro op a b _ h
    simp only [confined, confinedList, Bool.and_true, Bool.and_eq_true] at h ⊢
    exact ⟨h.2.1, h.2.2, fun ha hb => ⟨h.1, ha, hb⟩⟩
  cifthenelse := by
    intro cond ifso ifnot h
    simp only [confined, Bool.and_eq_true] at h ⊢
    exact ⟨h.1.2, h.2, fun ht ht' => ⟨⟨h.1.1, ht⟩, ht'⟩⟩
  cswitch := by
    intro scrutinee cases' actions h
    simp only [confined, Bool.and_eq_true, Machine.confinedList_iff] at h ⊢
    exact ⟨h.2, fun hts => ⟨h.1, hts⟩⟩
  ccatch h := nomatch h

theorem Structural.and {Φ Ψ : Expression O → Prop} (hΦ : Structural Φ) (hΨ : Structural Ψ) :
    Structural fun e => Φ e ∧ Ψ e where
  toHereditary := hΦ.toHereditary.and hΨ.toHereditary
  cop2 hop h := ⟨⟨(hΦ.cop2 hop h.1).1, (hΨ.cop2 hop h.2).1⟩,
    ⟨(hΦ.cop2 hop h.1).2.1, (hΨ.cop2 hop h.2).2.1⟩,
    fun ha hb => ⟨(hΦ.cop2 hop h.1).2.2 ha.1 hb.1, (hΨ.cop2 hop h.2).2.2 ha.2 hb.2⟩⟩
  cifthenelse h := ⟨⟨(hΦ.cifthenelse h.1).1, (hΨ.cifthenelse h.2).1⟩,
    ⟨(hΦ.cifthenelse h.1).2.1, (hΨ.cifthenelse h.2).2.1⟩,
    fun ha hb => ⟨(hΦ.cifthenelse h.1).2.2 ha.1 hb.1, (hΨ.cifthenelse h.2).2.2 ha.2 hb.2⟩⟩
  cswitch h := ⟨fun a ha => ⟨(hΦ.cswitch h.1).1 a ha, (hΨ.cswitch h.2).1 a ha⟩,
    fun hts => ⟨(hΦ.cswitch h.1).2 fun t ht => (hts t ht).1,
      (hΨ.cswitch h.2).2 fun t ht => (hts t ht).2⟩⟩
  ccatch h := ⟨fun d hd => ⟨(hΦ.ccatch h.1).1 d hd, (hΨ.ccatch h.2).1 d hd⟩,
    ⟨(hΦ.ccatch h.1).2.1, (hΨ.ccatch h.2).2.1⟩,
    fun hparams hhs ht => ⟨(hΦ.ccatch h.1).2.2 hparams (fun d hd => (hhs d hd).1) ht.1,
      (hΨ.ccatch h.2).2.2 hparams (fun d hd => (hhs d hd).2) ht.2⟩⟩

theorem structural_true : Structural fun _ : Expression O => True where
  const _ := trivial
  cop_const _ _ := Iff.rfl
  const_cop _ _ := Iff.rfl
  clet _ := ⟨trivial, fun _ => trivial⟩
  cphantomLet := Iff.rfl
  cnameForDebugger := Iff.rfl
  csequence := ⟨fun _ => ⟨trivial, trivial⟩, fun _ => trivial⟩
  cload _ := trivial
  cop2 _ _ := ⟨trivial, trivial, fun _ _ => trivial⟩
  cifthenelse _ := ⟨trivial, trivial, fun _ _ => trivial⟩
  cswitch _ := ⟨fun _ _ => trivial, fun _ => trivial⟩
  ccatch _ := ⟨fun _ _ => trivial, trivial, fun _ _ _ => trivial⟩

namespace Machine

variable {M : Machine O X σ}

theorem structural_quiet : Structural M.Quiet :=
  structural_confined (fun op hop => by cases op <;> first | rfl | cases hop) fun _ _ _ _ => rfl

theorem structural_pure : Structural M.Pure :=
  structural_confined (fun op hop => by cases op <;> first | rfl | cases hop) fun _ _ _ _ => rfl

theorem structural_steady : Structural M.Steady := by
  refine structural_confined (fun op hop => ?_) fun ch ch' m a => ?_
  · exact M.steadyOp_of_quietOp (by cases op <;> first | rfl | cases hop)
  · rw [M.steadyOp_of_quietOp rfl, M.steadyOp_of_quietOp rfl]

/-- What `c2` does decides which of three properties this is. -/
theorem structural_commute (c2 : Expression O) : Structural fun c1 => M.Commute c1 c2 := by
  by_cases hpure : M.Pure c2
  · have heq : (fun c1 => M.Commute c1 c2) = fun _ => True :=
      funext fun c1 => eq_true (.inr (.inr hpure))
    rw [heq]
    exact structural_true
  by_cases hquiet : M.Quiet c2
  · have heq : (fun c1 => M.Commute c1 c2) = M.Quiet := by
      funext c1
      refine propext ⟨?_, fun h => .inl ⟨h, hquiet⟩⟩
      rintro (h | h | h)
      · exact h.1
      · exact h.quiet
      · exact absurd h hpure
    rw [heq]
    exact structural_quiet
  have heq : (fun c1 => M.Commute c1 c2) = M.Pure := by
    funext c1
    refine propext ⟨?_, fun h => .inr (.inl h)⟩
    rintro (h | h | h)
    · exact absurd h.2 hquiet
    · exact h
    · exact absurd h hpure
  rw [heq]
  exact structural_pure

theorem structural_independent (c2 : Expression O) : Structural fun c1 => M.Independent c1 c2 := by
  have h := ((structural_binders fun v => v ∉ c2.vars).and
    (structural_vars fun v => v ∉ c2.binders)).and (structural_commute (M := M) c2)
  have heq : (fun c1 => M.Independent c1 c2) = fun c1 => ((∀ v ∈ c1.binders, v ∉ c2.vars) ∧
      ∀ v ∈ c1.vars, v ∉ c2.binders) ∧ M.Commute c1 c2 := by
    funext c1
    refine propext ⟨fun h => ⟨⟨h.left, fun v hv hv' => h.right v hv' hv⟩, h.commute⟩,
      fun h => ⟨h.1.1, fun v hv hv' => h.1.2 v hv' hv, h.2⟩⟩
  rw [heq]
  exact h

end Machine

end Oxcaml.Backend
