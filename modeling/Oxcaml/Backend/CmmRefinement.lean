/-
Oxcaml.Backend.CmmRefinement — what it means to build one expression for another.

`Relates R c e`: whenever `c` ends with a word, `e` ends in the same state with
a word that `R` relates to it, and an exit of `c` is an exit of `e`. `Becomes`
adds what the helpers promise about the shape of `e`: it is not much heavier
than `c`, and it has every hereditary property of `c`.

`Computes2 g c1 c2 e` is the same for two operands, which are evaluated from
right to left. The helpers hoist the `let`s and sequences of the left operand
over the right one, so this needs operands that are `Independent` (§4).
-/
import Oxcaml.Backend.CmmHelpers
import Oxcaml.Backend.CmmSemantics

set_option linter.all false

namespace Oxcaml.Backend

open Expression CmmPeepholeEngine CmmHelpers

variable {O X σ : Type}

/-! ## §1 Tails -/

namespace Expression

def tail : Expression O → Expression O
  | clet _ _ body => body.tail
  | cphantomLet _ _ body => body.tail
  | cnameForDebugger _ body => body.tail
  | csequence _ e2 => e2.tail
  | e => e

/-- The expression with another tail. -/
def setTail : Expression O → Expression O → Expression O
  | clet v exp body, t => clet v exp (body.setTail t)
  | cphantomLet v exp body, t => cphantomLet v exp (body.setTail t)
  | cnameForDebugger v body, t => cnameForDebugger v (body.setTail t)
  | csequence e1 e2, t => csequence e1 (e2.setTail t)
  | _, t => t

attribute [local grind =] tail setTail

attribute [elab_as_elim] tail.induct_unfolding

end Expression

theorem weight_tail_le (e : Expression O) : e.tail.weight ≤ e.weight := by
  fun_induction tail e with
  | case1 v exp body ih => rw [weight]; omega
  | case2 v exp body ih | case3 v body ih => exact ih
  | case4 e1 e2 ih => rw [weight]; omega
  | case5 e => exact Nat.le_refl _

variable {ε : Type}

theorem map_pure_bind {α β γ : Type} (x : Except ε α) (f : α → β) (g : β → γ) :
    (do let b ← x.map f; pure (g b)) = x.map fun a => g (f a) := by
  cases x <;> rfl

theorem mapTail1_eq (e : Expression O)
    (f : (c : Expression O) → c.weight ≤ e.weight → Except ε (Expression O)) :
    mapTail1 e f = (f e.tail (weight_tail_le e)).map fun t => e.setTail t := by
  fun_induction mapTail1 e f with
  | case1 f v exp body ih | case2 f v exp body ih | case3 f v body ih
  | case4 f e1 e2 ih => rw [ih]; exact map_pure_bind _ _ _
  | case5 e f h1 h2 h3 h4 =>
    have hid : ∀ x : Except ε (Expression O), x = x.map fun t => t := fun x => by cases x <;> rfl
    cases e with
    | clet v exp body => exact (h1 v exp body f rfl HEq.rfl).elim
    | cphantomLet v exp body => exact (h2 v exp body f rfl HEq.rfl).elim
    | cnameForDebugger v body => exact (h3 v body f rfl HEq.rfl).elim
    | csequence e1 e2 => exact (h4 e1 e2 f rfl HEq.rfl).elim
    | _ => exact hid _

variable {r c1 c2 t k d1 d2 : Expression O}

theorem mapTail1_ok {e : Expression O}
    {f : (c : Expression O) → c.weight ≤ e.weight → Except ε (Expression O)}
    (h : mapTail1 e f = .ok r) : ∃ t, f e.tail (weight_tail_le e) = .ok t ∧ r = e.setTail t := by
  rw [mapTail1_eq] at h
  cases ht : f e.tail (weight_tail_le e) with
  | error err => rw [ht] at h; cases h
  | ok t => rw [ht] at h; cases h; exact ⟨t, rfl, rfl⟩

theorem mapTail2_ok
    {f : (x : Expression O) → x.weight ≤ c1.weight → (y : Expression O) → y.weight ≤ c2.weight →
      Except ε (Expression O)} (h : mapTail2 c1 c2 f = .ok r) :
    ∃ t, f c1.tail (weight_tail_le c1) c2.tail (weight_tail_le c2) = .ok t ∧
      r = c2.setTail (c1.setTail t) := by
  obtain ⟨r', hr', rfl⟩ := mapTail1_ok h
  obtain ⟨t, ht, rfl⟩ := mapTail1_ok hr'
  exact ⟨t, ht, rfl⟩

theorem tail_tail (e : Expression O) : e.tail.tail = e.tail := by
  fun_induction tail e with
  | case1 v exp body ih | case2 v exp body ih | case3 v body ih | case4 e1 e2 ih => exact ih
  | case5 e h1 h2 h3 h4 => rw [tail] <;> assumption

theorem setTail_self (e : Expression O) : e.setTail e.tail = e := by
  fun_induction tail e with
  | case1 v exp body ih | case2 v exp body ih | case3 v body ih | case4 e1 e2 ih => rw [setTail, ih]
  | case5 e h1 h2 h3 h4 => rw [setTail] <;> assumption

theorem setTail_tail (e t : Expression O) : e.tail.setTail t = t := by
  fun_induction tail e with
  | case1 v exp body ih | case2 v exp body ih | case3 v body ih | case4 e1 e2 ih => exact ih
  | case5 e h1 h2 h3 h4 => rw [setTail] <;> assumption

/-- A function of the tails may be given the tails in the first place. -/
theorem mapTail2_tails
    {f : (x : Expression O) → x.weight ≤ c1.weight → (y : Expression O) → y.weight ≤ c2.weight →
      Except ε (Expression O)}
    {f' : (x : Expression O) → x.weight ≤ c1.tail.weight → (y : Expression O) →
      y.weight ≤ c2.tail.weight → Except ε (Expression O)}
    (hf : ∀ x y hx hy hx' hy', f x hx y hy = f' x hx' y hy') :
    mapTail2 c1 c2 f = (mapTail2 c1.tail c2.tail f').map fun t => c2.setTail (c1.setTail t) := by
  rw [mapTail2, mapTail1_eq, mapTail1_eq, mapTail2, mapTail1_eq, mapTail1_eq]
  rw [hf _ _ _ _ (Nat.le_refl _) (Nat.le_refl _)]
  have htails : ∀ x y hx hy, x = c1.tail → y = c2.tail →
      f' x hx y hy = f' c1.tail (Nat.le_refl _) c2.tail (Nat.le_refl _) := by
    rintro _ _ _ _ rfl rfl
    rfl
  rw [htails c1.tail.tail c2.tail.tail _ _ (tail_tail c1) (tail_tail c2)]
  cases f' c1.tail (Nat.le_refl _) c2.tail (Nat.le_refl _) with
  | error err => rfl
  | ok t => simp only [Except.map, setTail_tail]

/-! ## §2 Related outcomes -/

/-- Words are related by `R`, and exits are the same. -/
inductive Outcome.Rel (R : Nativeint → Nativeint → Prop) : Outcome X → Outcome X → Prop
  | word {a b} : R a b → Outcome.Rel R (.value (.word a)) (.value (.word b))
  | exit l args : Outcome.Rel R (.exit l args) (.exit l args)

/-- Not a value other than a word. -/
def Outcome.Narrow (o : Outcome X) : Prop := ∀ x, o ≠ .value (.wide x)

variable {o : Outcome X}

theorem Outcome.Rel.narrow {R : Nativeint → Nativeint → Prop} {o' : Outcome X}
    (h : Outcome.Rel R o o') : o'.Narrow := by
  cases h with
  | word _ | exit l args => exact fun x hx => by cases hx

namespace Machine

variable (M : Machine O X σ)

def Relates (R : Nativeint → Nativeint → Prop) (c e : Expression O) : Prop :=
  ∀ env s o s', M.Evaluates c env s o s' → o.Narrow →
    ∃ o', M.Evaluates e env s o' s' ∧ Outcome.Rel R o o'

variable {M} {R S : Nativeint → Nativeint → Prop} {c d e : Expression O}

theorem relates_refl (c : Expression O) : M.Relates (fun a b => b = a) c c := by
  intro env s o s' h hn
  rcases o with (a | x) | ⟨l, args⟩
  · exact ⟨_, h, .word rfl⟩
  · exact absurd rfl (hn x)
  · exact ⟨_, h, .exit l args⟩

theorem Relates.mono (h : M.Relates R c e) (hRS : ∀ a b, R a b → S a b) : M.Relates S c e := by
  intro env s o s' hc hn
  obtain ⟨o', he, hrel⟩ := h env s o s' hc hn
  refine ⟨o', he, ?_⟩
  cases hrel with
  | word hab => exact .word (hRS _ _ hab)
  | exit l args => exact .exit l args

theorem Relates.trans (h : M.Relates R c d) (h' : M.Relates S d e) :
    M.Relates (fun a b => ∃ m, R a m ∧ S m b) c e := by
  intro env s o s' hc hn
  obtain ⟨o₁, hd, hrel⟩ := h env s o s' hc hn
  obtain ⟨o₂, he, hrel'⟩ := h' env s o₁ s' hd hrel.narrow
  refine ⟨o₂, he, ?_⟩
  cases hrel with
  | word hab =>
    cases hrel' with
    | word hbc => exact .word ⟨_, hab, hbc⟩
  | exit l args =>
    cases hrel' with
    | exit => exact .exit l args

/-- The same under `let`s and sequences. -/
theorem Relates.setTail (h : M.Relates R e.tail t) : M.Relates R e (e.setTail t) := by
  fun_induction tail e with
  | case1 v exp body ih =>
    intro env s o s' hc hn
    rcases evaluates_clet.1 hc with ⟨x, s₁, hexp, hbody⟩ | ⟨l, args, rfl, hexp⟩
    · obtain ⟨o', he, hrel⟩ := ih h _ _ _ _ hbody hn
      exact ⟨o', evaluates_clet.2 (.inl ⟨x, s₁, hexp, he⟩), hrel⟩
    · exact ⟨_, evaluates_clet.2 (.inr ⟨l, args, rfl, hexp⟩), .exit l args⟩
  | case2 v exp body ih =>
    intro env s o s' hc hn
    obtain ⟨o', he, hrel⟩ := ih h _ _ _ _ (evaluates_cphantomLet.1 hc) hn
    exact ⟨o', evaluates_cphantomLet.2 he, hrel⟩
  | case3 v body ih =>
    intro env s o s' hc hn
    obtain ⟨o', he, hrel⟩ := ih h _ _ _ _ (evaluates_cnameForDebugger.1 hc) hn
    exact ⟨o', evaluates_cnameForDebugger.2 he, hrel⟩
  | case4 e1 e2 ih =>
    intro env s o s' hc hn
    rcases evaluates_csequence.1 hc with ⟨x, s₁, hexp, hbody⟩ | ⟨l, args, rfl, hexp⟩
    · obtain ⟨o', he, hrel⟩ := ih h _ _ _ _ hbody hn
      exact ⟨o', evaluates_csequence.2 (.inl ⟨x, s₁, hexp, he⟩), hrel⟩
    · exact ⟨_, evaluates_csequence.2 (.inr ⟨l, args, rfl, hexp⟩), .exit l args⟩
  | case5 e h1 h2 h3 h4 => rwa [Expression.setTail] <;> assumption

variable {env : Bindings X}

theorem evaluates_core {s s' : σ} (e : Expression O) :
    M.Evaluates (core e) env s o s' ↔ M.Evaluates e env s o s' := by
  induction e using core_induction with
  | phantom v exp body ih => rw [core, ih, evaluates_cphantomLet]
  | named v body ih => rw [core, ih, evaluates_cnameForDebugger]
  | other e h1 h2 => rw [core] <;> assumption

theorem evaluates_placePhantomLets {s s' : σ} (ev : Env O) (e : Expression O) :
    M.Evaluates (ev.placePhantomLets e) env s o s' ↔ M.Evaluates e env s o s' := by
  rw [Env.placePhantomLets]
  induction ev.phantomLetsRev generalizing e with
  | nil => rfl
  | cons p ps ih => rw [List.foldl_cons, ih, evaluates_cphantomLet]

/-- A constant ends with its word, whatever debugging constructs surround it. -/
theorem evaluates_const {w : Nativeint} (hk : getConst (core k) = some w) {s s' : σ} :
    M.Evaluates k env s o s' ↔ o = .value (.word w) ∧ s' = s := by
  rw [← evaluates_core]
  generalize core k = k' at hk
  cases k' with
  | cconstInt n => cases hk; exact evaluates_cconstInt
  | cconstNatint n => cases hk; exact evaluates_cconstNatint
  | _ => cases hk

/-! ## §3 Operations with a constant -/

end Machine

/-- Operations on two words. -/
def Operation.isWord : Operation O → Bool
  | .cload .. => false
  | .ccmpf .. => false
  | .other _ => false
  | _ => true

/-- What an operation does to its left operand when the right one is `w`. -/
def opWithConst (op : Operation O) (w : Nativeint) : Option (Nativeint → Nativeint) :=
  match op with
  | .caddi => some (· + w)
  | .csubi => some (· - w)
  | .cmuli => some (· * w)
  | .cmulhi signed => some (mulhi signed · w)
  | .cand => some (· &&& w)
  | .cor => some (· ||| w)
  | .cxor => some (· ^^^ w)
  | .clsl => if w.toNat < 64 then some (· <<< w.toNat) else none
  | .clsr => if w.toNat < 64 then some (· >>> w.toNat) else none
  | .casr => if w.toNat < 64 then some fun a => a.sshiftRight w.toNat else none
  | _ => none

/-- What an operation does to its right operand when the left one is `w`. -/
def constWithOp (op : Operation O) (w : Nativeint) : Option (Nativeint → Nativeint) :=
  match op with
  | .caddi => some (w + ·)
  | .csubi => some (w - ·)
  | .cmuli => some (w * ·)
  | .cand => some (w &&& ·)
  | .cor => some (w ||| ·)
  | .cxor => some (w ^^^ ·)
  | _ => none

attribute [local grind =] opWithConst constWithOp

namespace Machine

variable {M : Machine O X σ} {R S : Nativeint → Nativeint → Prop} {c d e k : Expression O}
  {op : Operation O} {w : Nativeint}

variable {g : Nativeint → Nativeint}

theorem word2_of_opWithConst (h : opWithConst op w = some g)
    (a : Nativeint) : M.word2 op a w = some (g a) := by
  unfold opWithConst at h
  split at h
  case h_8 | h_9 | h_10 =>
    split at h
    · cases h; rw [word2, shift, if_pos ‹_›]
    · cases h
  all_goals cases h
  all_goals rfl

theorem isWord_of_opWithConst (h : opWithConst op w = some g) : op.isWord = true := by
  cases op <;> first | rfl | cases h

theorem word2_of_constWithOp (h : constWithOp op w = some g)
    (a : Nativeint) : M.word2 op w a = some (g a) := by
  unfold constWithOp at h
  split at h
  all_goals cases h
  all_goals rfl

theorem isWord_of_constWithOp (h : constWithOp op w = some g) : op.isWord = true := by
  cases op <;> first | rfl | cases h

variable {o : Outcome X}

variable {s s' : σ}

section

variable (hop : op.isWord = true)
include hop

theorem apply_isWord {vs : List (Value X)} :
    M.apply op vs s = some (o, s') ↔ ∃ a b v, vs = [.word a, .word b] ∧ M.word2 op a b = some v ∧
      o = .value (.word v) ∧ s' = s := by
  unfold apply
  split
  case h_1 | h_2 | h_3 => cases hop
  case h_4 =>
    split
    case h_1 a b =>
      rw [Option.map_eq_some_iff]
      constructor
      · rintro ⟨v, hv, h⟩
        cases h
        exact ⟨a, b, v, rfl, hv, rfl, rfl⟩
      rintro ⟨a', b', v, heq, hv, rfl, rfl⟩
      cases heq
      exact ⟨v, hv, rfl⟩
    case h_2 hne =>
      constructor
      · intro h; cases h
      · rintro ⟨a, b, v, rfl, -⟩; exact absurd rfl (hne a b)

/-- Two operands, from right to left. -/
theorem evaluates_cop2 {env : Bindings X} :
    M.Evaluates (cop op [c1, c2]) env s o s' ↔
      (∃ a b v s₁, M.Evaluates c2 env s (.value (.word b)) s₁ ∧
        M.Evaluates c1 env s₁ (.value (.word a)) s' ∧ M.word2 op a b = some v ∧
        o = .value (.word v)) ∨
      ∃ l args, o = .exit l args ∧ (M.Evaluates c2 env s (.exit l args) s' ∨
        ∃ x s₁, M.Evaluates c2 env s (.value x) s₁ ∧ M.Evaluates c1 env s₁ (.exit l args) s') := by
  rw [evaluates_cop]
  simp only [evaluatesArgs_cons, evaluatesArgs_nil, apply_isWord hop]
  constructor
  · rintro (⟨vs, s₁, h, a, b, v, rfl, hv, rfl, rfl⟩ | ⟨l, args, rfl, h⟩)
    · rcases h with ⟨x, hx, -⟩ | ⟨vs, s₂, h, h' | ⟨l, args, hx, -⟩⟩
      · cases hx
      · obtain ⟨v₁, hv₁, h₁⟩ := h'
        rcases h with ⟨x, hx, -⟩ | ⟨vs', s₃, ⟨hvs', rfl⟩, h⟩
        · cases hx
        cases hvs'
        rcases h with ⟨v₂, hv₂, h₂⟩ | ⟨l, args, hx, -⟩
        · cases hv₂
          cases hv₁
          exact .inl ⟨a, b, v, s₂, h₂, h₁, hv, rfl⟩
        · cases hx
      · cases hx
    refine .inr ⟨l, args, rfl, ?_⟩
    rcases h with ⟨x, hx, h⟩ | ⟨vs, s₂, h, ⟨v₁, hx, -⟩ | ⟨l', args', hx, h'⟩⟩
    · cases hx
      rcases h with ⟨x, -, hx, -⟩ | ⟨vs, s₂, ⟨-, rfl⟩, ⟨v₁, hx, -⟩ | ⟨l', args', hx, h⟩⟩
      · cases hx
      · cases hx
      · cases hx; exact .inl h
    · cases hx
    cases hx
    rcases h with ⟨x, hx, -⟩ | ⟨vs, s₃, ⟨hvs, rfl⟩, ⟨v₁, -, h⟩ | ⟨l', args', hx, -⟩⟩
    · cases hx
    · exact .inr ⟨v₁, s₂, h, h'⟩
    · cases hx
  rintro (⟨a, b, v, s₁, h₂, h₁, hv, rfl⟩ | ⟨l, args, rfl, h₂ | ⟨x, s₁, h₂, h₁⟩⟩)
  · exact .inl ⟨_, s', .inr ⟨[.word b], s₁, .inr ⟨[], s, ⟨rfl, rfl⟩, .inl ⟨_, rfl, h₂⟩⟩,
      .inl ⟨_, rfl, h₁⟩⟩, a, b, v, rfl, hv, rfl, rfl⟩
  · exact .inr ⟨l, args, rfl, .inl ⟨_, rfl, .inr ⟨[], s, ⟨rfl, rfl⟩, .inr ⟨l, args, rfl, h₂⟩⟩⟩⟩
  · exact .inr ⟨l, args, rfl, .inr ⟨[x], s₁, .inr ⟨[], s, ⟨rfl, rfl⟩, .inl ⟨x, rfl, h₂⟩⟩,
      .inr ⟨l, args, rfl, h₁⟩⟩⟩

theorem evaluates_cop_const (hk : getConst (core k) = some w)
    {env : Bindings X} :
    M.Evaluates (cop op [c, k]) env s o s' ↔
      (∃ a v, M.Evaluates c env s (.value (.word a)) s' ∧ M.word2 op a w = some v ∧
        o = .value (.word v)) ∨
      ∃ l args, o = .exit l args ∧ M.Evaluates c env s (.exit l args) s' := by
  rw [evaluates_cop2 hop]
  simp only [evaluates_const hk]
  constructor
  · rintro (⟨a, b, v, s₁, ⟨hb, rfl⟩, h, hv, rfl⟩ | ⟨l, args, rfl, ⟨hx, -⟩ | ⟨x, s₁, ⟨-, rfl⟩, h⟩⟩)
    · cases hb; exact .inl ⟨a, v, h, hv, rfl⟩
    · cases hx
    · exact .inr ⟨l, args, rfl, h⟩
  rintro (⟨a, v, h, hv, rfl⟩ | ⟨l, args, rfl, h⟩)
  · exact .inl ⟨a, w, v, s, ⟨rfl, rfl⟩, h, hv, rfl⟩
  · exact .inr ⟨l, args, rfl, .inr ⟨_, s, ⟨rfl, rfl⟩, h⟩⟩

theorem evaluates_const_cop (hk : getConst (core k) = some w)
    {env : Bindings X} :
    M.Evaluates (cop op [k, c]) env s o s' ↔
      (∃ a v, M.Evaluates c env s (.value (.word a)) s' ∧ M.word2 op w a = some v ∧
        o = .value (.word v)) ∨
      ∃ l args, o = .exit l args ∧ M.Evaluates c env s (.exit l args) s' := by
  rw [evaluates_cop2 hop]
  simp only [evaluates_const hk]
  constructor
  · rintro (⟨a, b, v, s₁, h, ⟨ha, rfl⟩, hv, rfl⟩ | ⟨l, args, rfl, h | ⟨x, s₁, -, hx, -⟩⟩)
    · cases ha; exact .inl ⟨b, v, h, hv, rfl⟩
    · exact .inr ⟨l, args, rfl, h⟩
    · cases hx
  rintro (⟨a, v, h, hv, rfl⟩ | ⟨l, args, rfl, h⟩)
  · exact .inl ⟨w, a, v, s', h, ⟨rfl, rfl⟩, hv, rfl⟩
  · exact .inr ⟨l, args, rfl, .inl h⟩

end

theorem relates_cop (hg : opWithConst op w = some g)
    (hk : getConst (core k) = some w) : M.Relates (fun a b => b = g a) c (cop op [c, k]) := by
  intro env s o s' h hn
  have hop := isWord_of_opWithConst hg
  rcases o with (a | x) | ⟨l, args⟩
  · exact ⟨_, (evaluates_cop_const hop hk).2 (.inl ⟨a, g a, h, word2_of_opWithConst hg a, rfl⟩),
      .word rfl⟩
  · exact absurd rfl (hn x)
  · exact ⟨_, (evaluates_cop_const hop hk).2 (.inr ⟨l, args, rfl, h⟩), .exit l args⟩

theorem Relates.of_cop (hg : opWithConst op w = some g)
    (hk : getConst (core k) = some w) (h : M.Relates (fun a b => R (g a) b) c e) :
    M.Relates R (cop op [c, k]) e := by
  intro env s o s' hc hn
  have hop := isWord_of_opWithConst hg
  rcases (evaluates_cop_const hop hk).1 hc with ⟨a, v, hc', hv, rfl⟩ | ⟨l, args, rfl, hc'⟩
  · rw [word2_of_opWithConst hg, Option.some.injEq] at hv
    subst hv
    obtain ⟨o', he, hrel⟩ := h _ _ _ _ hc' (fun x hx => nomatch hx)
    cases hrel with
    | word hab => exact ⟨_, he, .word hab⟩
  obtain ⟨o', he, hrel⟩ := h _ _ _ _ hc' hn
  cases hrel with
  | exit => exact ⟨_, he, .exit l args⟩

theorem relates_const_cop (hg : constWithOp op w = some g)
    (hk : getConst (core k) = some w) : M.Relates (fun a b => b = g a) c (cop op [k, c]) := by
  intro env s o s' h hn
  have hop := isWord_of_constWithOp hg
  rcases o with (a | x) | ⟨l, args⟩
  · exact ⟨_, (evaluates_const_cop hop hk).2 (.inl ⟨a, g a, h, word2_of_constWithOp hg a, rfl⟩),
      .word rfl⟩
  · exact absurd rfl (hn x)
  · exact ⟨_, (evaluates_const_cop hop hk).2 (.inr ⟨l, args, rfl, h⟩), .exit l args⟩

theorem Relates.of_const_cop (hg : constWithOp op w = some g)
    (hk : getConst (core k) = some w) (h : M.Relates (fun a b => R (g a) b) c e) :
    M.Relates R (cop op [k, c]) e := by
  intro env s o s' hc hn
  have hop := isWord_of_constWithOp hg
  rcases (evaluates_const_cop hop hk).1 hc with ⟨a, v, hc', hv, rfl⟩ | ⟨l, args, rfl, hc'⟩
  · rw [word2_of_constWithOp hg, Option.some.injEq] at hv
    subst hv
    obtain ⟨o', he, hrel⟩ := h _ _ _ _ hc' (fun x hx => nomatch hx)
    cases hrel with
    | word hab => exact ⟨_, he, .word hab⟩
  obtain ⟨o', he, hrel⟩ := h _ _ _ _ hc' hn
  cases hrel with
  | exit => exact ⟨_, he, .exit l args⟩

end Machine

/-- A property that does not depend on constants, on debugging constructs or on
the integer operation that combines an expression with a constant. -/
structure Hereditary (Φ : Expression O → Prop) : Prop where
  const : ∀ {k}, (getConst k).isSome → Φ k
  cop_const : ∀ {op c k}, op.isWord = true → (getConst (core k)).isSome → (Φ (cop op [c, k]) ↔ Φ c)
  const_cop : ∀ {op c k}, op.isWord = true → (getConst (core k)).isSome → (Φ (cop op [k, c]) ↔ Φ c)
  clet : ∀ {v exp body}, Φ (clet v exp body) → Φ body ∧ ∀ {t}, Φ t → Φ (clet v exp t)
  cphantomLet : ∀ {v d body}, Φ (cphantomLet v d body) ↔ Φ body
  cnameForDebugger : ∀ {v body}, Φ (cnameForDebugger v body) ↔ Φ body
  csequence : ∀ {e1 e2}, Φ (csequence e1 e2) ↔ Φ e1 ∧ Φ e2
  cload : ∀ {ch ch' m a args}, Φ (cop (.cload ch m a) args) → Φ (cop (.cload ch' m a) args)

/-- `e` is built from `c` and constants, with at most `n` more nodes, and ends
with words that `R` relates to those of `c`. -/
structure Becomes (R : Nativeint → Nativeint → Prop) (n : Nat) (c e : Expression O) : Prop where
  weight_le : e.weight ≤ c.weight + n
  hereditary : ∀ {Φ : Expression O → Prop}, Hereditary Φ → Φ c → Φ e
  relates : ∀ {X σ : Type} (M : Machine O X σ), M.Relates R c e

section Becomes

variable {R S : Nativeint → Nativeint → Prop} {n m : Nat} {c d e k : Expression O}
  {op : Operation O} {w : Nativeint}

theorem becomes_refl (c : Expression O) : Becomes (fun a b => b = a) 0 c c :=
  ⟨Nat.le_refl _, fun _ h => h, fun _ => Machine.relates_refl c⟩

theorem Becomes.mono (h : Becomes R n c e) (hRS : ∀ a b, R a b → S a b) (hn : n ≤ m) :
    Becomes S m c e :=
  ⟨Nat.le_trans h.weight_le (Nat.add_le_add_left hn _), h.hereditary,
    fun M => (h.relates M).mono hRS⟩

theorem Becomes.trans (h : Becomes R n c d) (h' : Becomes S m d e) :
    Becomes (fun a b => ∃ x, R a x ∧ S x b) (n + m) c e := by
  refine ⟨?_, fun hΦ hc => h'.hereditary hΦ (h.hereditary hΦ hc),
    fun M => (h.relates M).trans (h'.relates M)⟩
  have h₁ := h.weight_le
  have h₂ := h'.weight_le
  omega

theorem Hereditary.tail {Φ : Expression O → Prop} (hΦ : Hereditary Φ) (h : Φ e) :
    Φ e.tail ∧ ∀ {t}, Φ t → Φ (e.setTail t) := by
  fun_induction Expression.tail e with
  | case1 v exp body ih =>
    obtain ⟨hbody, hset⟩ := hΦ.clet h
    exact ⟨(ih hbody).1, fun ht => hset ((ih hbody).2 ht)⟩
  | case2 v exp body ih =>
    have hbody := hΦ.cphantomLet.1 h
    exact ⟨(ih hbody).1, fun ht => hΦ.cphantomLet.2 ((ih hbody).2 ht)⟩
  | case3 v body ih =>
    have hbody := hΦ.cnameForDebugger.1 h
    exact ⟨(ih hbody).1, fun ht => hΦ.cnameForDebugger.2 ((ih hbody).2 ht)⟩
  | case4 e1 e2 ih =>
    obtain ⟨he1, he2⟩ := hΦ.csequence.1 h
    exact ⟨(ih he2).1, fun ht => hΦ.csequence.2 ⟨he1, (ih he2).2 ht⟩⟩
  | case5 e h1 h2 h3 h4 => refine ⟨h, fun ht => ?_⟩; rwa [setTail] <;> assumption

theorem weight_setTail_le (h : t.weight ≤ e.tail.weight + n) :
    (e.setTail t).weight ≤ e.weight + n := by
  fun_induction Expression.tail e with
  | case1 v exp body ih => simp only [setTail, weight]; omega
  | case2 v exp body ih | case3 v body ih => exact ih h
  | case4 e1 e2 ih => simp only [setTail, weight]; omega
  | case5 e h1 h2 h3 h4 => rwa [setTail] <;> assumption

/-- The same under `let`s and sequences. -/
theorem Becomes.setTail (h : Becomes R n e.tail t) : Becomes R n e (e.setTail t) :=
  ⟨weight_setTail_le h.weight_le,
    fun hΦ he => (hΦ.tail he).2 (h.hereditary hΦ (hΦ.tail he).1), fun M => (h.relates M).setTail⟩

theorem weight_const (hk : (getConst k).isSome) : k.weight = 1 := by
  cases k <;> first | rfl | cases hk

theorem core_const (hk : (getConst k).isSome) : core k = k := by
  cases k <;> first | rfl | cases hk

theorem weight_core_const (hk : (getConst (core k)).isSome) : k.weight = 1 := by
  rw [← weight_core, weight_const hk]

variable {g : Nativeint → Nativeint}

theorem becomes_cop (hg : opWithConst op w = some g)
    (hk : getConst (core k) = some w) : Becomes (fun a b => b = g a) 2 c (cop op [c, k]) := by
  have hsome : (getConst (core k)).isSome := by rw [hk]; rfl
  refine ⟨?_, fun hΦ hc => ?_, fun M => Machine.relates_cop hg hk⟩
  · simp only [weight, weightList, weight_core_const hsome]; omega
  · exact (hΦ.cop_const (Machine.isWord_of_opWithConst hg) hsome).2 hc

theorem Becomes.of_cop (hg : opWithConst op w = some g)
    (hk : getConst (core k) = some w) (h : Becomes (fun a b => R (g a) b) n c e)
    (hn : n ≤ m + 2) : Becomes R m (cop op [c, k]) e := by
  refine ⟨?_, fun hΦ hc => h.hereditary hΦ ?_, fun M => (h.relates M).of_cop hg hk⟩
  · have h₁ := h.weight_le
    have h₂ := k.one_le_weight
    simp only [weight, weightList]
    omega
  · exact (hΦ.cop_const (Machine.isWord_of_opWithConst hg) (by rw [hk]; rfl)).1 hc

theorem becomes_const_cop (hg : constWithOp op w = some g)
    (hk : getConst k = some w) : Becomes (fun a b => b = g a) 2 c (cop op [k, c]) := by
  have hsome : (getConst k).isSome := by rw [hk]; rfl
  have hcore := core_const hsome
  refine ⟨?_, fun hΦ hc => ?_, fun M => Machine.relates_const_cop hg (by rw [hcore, hk])⟩
  · simp only [weight, weightList, weight_const hsome]; omega
  · exact (hΦ.const_cop (Machine.isWord_of_constWithOp hg) (by rw [hcore, hk]; rfl)).2 hc

theorem Becomes.of_const_cop (hg : constWithOp op w = some g)
    (hk : getConst (core k) = some w) (h : Becomes (fun a b => R (g a) b) n c e)
    (hn : n ≤ m + 2) : Becomes R m (cop op [k, c]) e := by
  refine ⟨?_, fun hΦ hc => h.hereditary hΦ ?_, fun M => (h.relates M).of_const_cop hg hk⟩
  · have h₁ := h.weight_le
    have h₂ := k.one_le_weight
    simp only [weight, weightList]
    omega
  · exact (hΦ.const_cop (Machine.isWord_of_constWithOp hg) (by rw [hk]; rfl)).1 hc

/-- Two constants. -/
theorem becomes_const {a b : Nativeint} (hc : getConst (core c) = some a)
    (he : getConst e = some b) (h : R a b) : Becomes R 0 c e := by
  have hsome : (getConst e).isSome := by rw [he]; rfl
  refine ⟨?_, fun hΦ _ => hΦ.const hsome, fun M => ?_⟩
  · rw [weight_const hsome]; exact c.one_le_weight
  intro env s o s' h' hn
  obtain ⟨rfl, rfl⟩ := (Machine.evaluates_const hc).1 h'
  exact ⟨_, (Machine.evaluates_const (by rw [core_const hsome, he])).2 ⟨rfl, rfl⟩, .word h⟩

variable {M : Machine O X σ}

/-- The atoms that `replace` drops have no effects. -/
theorem evaluates_replace {env : Machine.Bindings X} {s s' : σ} {x : Value X} {s₁ : σ}
    (hc : M.Evaluates c env s (.value x) s₁)
    (hk : M.Evaluates k env s₁ o s') : M.Evaluates (replace c k) env s o s' := by
  have hatom : M.Quiet c → M.Evaluates k env s o s' := fun h => (h.evaluates hc).1 ▸ hk
  unfold replace
  split
  case h_6 => exact Machine.evaluates_csequence.2 (.inl ⟨x, s₁, hc, hk⟩)
  all_goals exact hatom rfl

theorem evaluates_replace_exit {env : Machine.Bindings X} {s s' : σ}
    {l : ExitLabel} {args : List (Value X)} (hc : M.Evaluates c env s (.exit l args) s') :
    M.Evaluates (replace c k) env s (.exit l args) s' := by
  have hatom : M.Quiet c → M.Evaluates k env s (.exit l args) s' := fun h => by
    obtain ⟨-, v, hv⟩ := h.evaluates hc
    cases hv
  unfold replace
  split
  case h_6 => exact Machine.evaluates_csequence.2 (.inr ⟨l, args, rfl, hc⟩)
  all_goals exact hatom rfl

theorem becomes_replace (hk : getConst k = some w) (h : ∀ a, R a w) :
    Becomes R 2 c (replace c k) := by
  have hsome : (getConst k).isSome := by rw [hk]; rfl
  have heval : ∀ {X σ : Type} {M : Machine O X σ} {env : Machine.Bindings X} {s : σ},
      M.Evaluates k env s (.value (.word w)) s := fun {_ _ _ _ _} =>
    (Machine.evaluates_const (by rw [core_const hsome, hk])).2 ⟨rfl, rfl⟩
  refine ⟨?_, fun hΦ hc => ?_, fun M => ?_⟩
  · have hw := weight_const hsome
    unfold replace
    split <;> simp only [weight] <;> lia
  · unfold replace
    split
    case h_6 => exact hΦ.csequence.2 ⟨hc, hΦ.const hsome⟩
    all_goals exact hΦ.const hsome
  intro env s o s' h' hn
  rcases o with (a | x) | ⟨l, args⟩
  · exact ⟨_, evaluates_replace h' heval, .word (h a)⟩
  · exact absurd rfl (hn x)
  · exact ⟨_, evaluates_replace_exit h', .exit l args⟩

theorem Hereditary.core_iff {Φ : Expression O → Prop} (hΦ : Hereditary Φ) (e : Expression O) :
    Φ (core e) ↔ Φ e := by
  induction e using core_induction with
  | phantom v exp body ih => rw [core, ih, hΦ.cphantomLet]
  | named v body ih => rw [core, ih, hΦ.cnameForDebugger]
  | other e h1 h2 => rw [core] <;> assumption

/-- Debugging constructs around the source do not matter. -/
theorem Becomes.of_core (h : Becomes R n (core c) e) : Becomes R n c e := by
  refine ⟨?_, fun hΦ hc => h.hereditary hΦ ((hΦ.core_iff c).2 hc), fun M => ?_⟩
  · rw [← weight_core c]; exact h.weight_le
  · exact fun env s o s' hc => h.relates M env s o s' ((Machine.evaluates_core c).2 hc)

theorem Becomes.to_core (h : Becomes R n c e) : Becomes R n (core c) e := by
  refine ⟨?_, fun hΦ hc => h.hereditary hΦ ((hΦ.core_iff c).1 hc), fun M => ?_⟩
  · rw [weight_core c]; exact h.weight_le
  · exact fun env s o s' hc => h.relates M env s o s' ((Machine.evaluates_core c).1 hc)

theorem Becomes.congr_core (hcd : core c = core d) (h : Becomes R n d e) : Becomes R n c e :=
  .of_core (hcd ▸ h.to_core)

/-- Debugging constructs around the result do not matter. -/
theorem Becomes.core_result (h : Becomes R n c (core e)) : Becomes R n c e := by
  refine ⟨?_, fun hΦ hc => (hΦ.core_iff e).1 (h.hereditary hΦ hc), fun M => ?_⟩
  · rw [← weight_core e]; exact h.weight_le
  intro env s o s' hc hn
  obtain ⟨o', he, hrel⟩ := h.relates M env s o s' hc hn
  exact ⟨o', (Machine.evaluates_core e).1 he, hrel⟩

theorem Becomes.phantom (h : Becomes R n c e) (v : BackendVar)
    (exp : Option PhantomDefiningExpr) : Becomes R n c (cphantomLet v exp e) := by
  refine ⟨by exact h.weight_le, fun hΦ hc => hΦ.cphantomLet.2 (h.hereditary hΦ hc),
    fun M env s o s' hc hn => ?_⟩
  obtain ⟨o', he, hrel⟩ := h.relates M env s o s' hc hn
  exact ⟨o', Machine.evaluates_cphantomLet.2 he, hrel⟩

theorem Becomes.placePhantomLets (h : Becomes R n c e) (env : Env O) :
    Becomes R n c (env.placePhantomLets e) := by
  rw [Env.placePhantomLets]
  induction env.phantomLetsRev generalizing e with
  | nil => exact h
  | cons p ps ih => exact ih (h.phantom p.1 p.2)

end Becomes

/-! ## §4 Two operands -/

namespace Machine

variable (M : Machine O X σ)

/-- The order in which `a` and `b` are evaluated does not matter: neither has
effects, or one has neither effects nor coeffects. -/
def Commute (a b : Expression O) : Prop := (M.Quiet a ∧ M.Quiet b) ∨ M.Pure a ∨ M.Pure b

/-- Operands that a helper may reorder: their evaluations commute, and neither
binds a variable of the other. -/
structure Independent (c1 c2 : Expression O) : Prop where
  left : ∀ v ∈ c1.binders, v ∉ c2.vars
  right : ∀ v ∈ c2.binders, v ∉ c1.vars
  commute : M.Commute c1 c2

/-- `e` evaluates both operands and ends with what `g` makes of their words.
When the right operand exits, the left one must not be stuck. -/
structure Computes2 (g : Nativeint → Nativeint → Option Nativeint) (c1 c2 e : Expression O) :
    Prop where
  values : ∀ {env s a b v s₁ s₂}, M.Evaluates c2 env s (.value (.word b)) s₁ →
    M.Evaluates c1 env s₁ (.value (.word a)) s₂ → g a b = some v →
    M.Evaluates e env s (.value (.word v)) s₂
  left : ∀ {env s x l args s₁ s₂}, M.Evaluates c2 env s (.value x) s₁ →
    M.Evaluates c1 env s₁ (.exit l args) s₂ → M.Evaluates e env s (.exit l args) s₂
  right : ∀ {env s l args x s₁ s₂}, M.Evaluates c2 env s (.exit l args) s₁ →
    M.Evaluates c1 env s (.value x) s₂ → M.Evaluates e env s (.exit l args) s₁

variable {M} {a b c1 c2 e t : Expression O} {g : Nativeint → Nativeint → Option Nativeint}

variable {env : Bindings X} {s s' : σ}

section

variable (h : M.Commute a b)
include h

theorem Commute.swap {s₁ s₂ : σ} {x y : Value X}
    (hb : M.Evaluates b env s (.value y) s₁) (ha : M.Evaluates a env s₁ (.value x) s₂) :
    ∃ s', M.Evaluates a env s (.value x) s' ∧ M.Evaluates b env s' (.value y) s₂ := by
  rcases h with ⟨hqa, hqb⟩ | hpa | hpb
  · obtain ⟨rfl, -⟩ := hqa.evaluates ha
    obtain ⟨rfl, -⟩ := hqb.evaluates hb
    exact ⟨s₂, ha, hb⟩
  · obtain ⟨rfl, -⟩ := hpa.quiet.evaluates ha; exact ⟨s, hpa.evaluates ha s, hb⟩
  · obtain ⟨rfl, -⟩ := hpb.quiet.evaluates hb; exact ⟨s₂, ha, hpb.evaluates hb s₂⟩

theorem Commute.pure_left {l : ExitLabel}
    {args : List (Value X)} (hb : M.Evaluates b env s (.exit l args) s') : M.Pure a := by
  have hq : ¬ M.Quiet b := fun hq => by
    obtain ⟨-, v, hv⟩ := hq.evaluates hb
    cases hv
  rcases h with ⟨-, hqb⟩ | hpa | hpb
  · exact absurd hqb hq
  · exact hpa
  · exact absurd hpb.quiet hq

theorem Commute.symm : M.Commute b a := by
  rcases h with ⟨ha, hb⟩ | h | h
  · exact .inl ⟨hb, ha⟩
  · exact .inr (.inr h)
  · exact .inr (.inl h)

theorem Commute.mono {a' b' : Expression O}
    (ha : ∀ ok, a.confined ok = true → a'.confined ok = true)
    (hb : ∀ ok, b.confined ok = true → b'.confined ok = true) : M.Commute a' b' := by
  rcases h with ⟨hqa, hqb⟩ | h | h
  · exact .inl ⟨ha _ hqa, hb _ hqb⟩
  · exact .inr (.inl (ha _ h))
  · exact .inr (.inr (hb _ h))

end

/-- What an expression may do bounds what another one may do. -/
structure Within (e c : Expression O) : Prop where
  vars : ∀ v ∈ e.vars, v ∈ c.vars
  binders : ∀ v ∈ e.binders, v ∈ c.binders
  confined : ∀ ok, c.confined ok = true → e.confined ok = true

theorem within_refl (e : Expression O) : Within e e := ⟨fun _ h => h, fun _ h => h, fun _ h => h⟩

theorem Independent.mono {c1' c2' : Expression O} (h : M.Independent c1 c2) (h1 : Within c1' c1)
    (h2 : Within c2' c2) : M.Independent c1' c2' :=
  ⟨fun v hv hv' => h.left v (h1.binders v hv) (h2.vars v hv'),
    fun v hv hv' => h.right v (h2.binders v hv) (h1.vars v hv'),
    h.commute.mono h1.confined h2.confined⟩

section

variable (v : BackendVar)

theorem within_clet_exp (exp body : Expression O) :
    Within exp (clet v exp body) := by
  refine ⟨fun w hw => ?_, fun w hw => ?_, fun ok h => ?_⟩
  · simp [Expression.vars, hw]
  · simp [Expression.binders, hw]
  · rw [Expression.confined, Bool.and_eq_true] at h; exact h.1

theorem within_clet_body (exp body : Expression O) :
    Within body (clet v exp body) := by
  refine ⟨fun w hw => ?_, fun w hw => ?_, fun ok h => ?_⟩
  · simp [Expression.vars, hw]
  · simp [Expression.binders, hw]
  · rw [Expression.confined, Bool.and_eq_true] at h; exact h.2

theorem within_cphantomLet (d : Option PhantomDefiningExpr)
    (body : Expression O) : Within body (cphantomLet v d body) :=
  ⟨fun _ h => h, fun _ h => h, fun _ h => h⟩

theorem within_cnameForDebugger (body : Expression O) :
    Within body (cnameForDebugger v body) :=
  ⟨fun _ h => h, fun _ h => h, fun _ h => h⟩

end

theorem within_csequence_left (e1 e2 : Expression O) : Within e1 (csequence e1 e2) := by
  refine ⟨fun w hw => ?_, fun w hw => ?_, fun ok h => ?_⟩
  · simp [Expression.vars, hw]
  · simp [Expression.binders, hw]
  · rw [Expression.confined, Bool.and_eq_true] at h; exact h.1

theorem within_csequence_right (e1 e2 : Expression O) : Within e2 (csequence e1 e2) := by
  refine ⟨fun w hw => ?_, fun w hw => ?_, fun ok h => ?_⟩
  · simp [Expression.vars, hw]
  · simp [Expression.binders, hw]
  · rw [Expression.confined, Bool.and_eq_true] at h; exact h.2

/-- `let`s and sequences of the right operand are evaluated first anyway. -/
theorem Computes2.setTail_right (hind : M.Independent c1 c2) (h : M.Computes2 g c1 c2.tail t) :
    M.Computes2 g c1 c2 (c2.setTail t) := by
  fun_induction Expression.tail c2 with
  | case1 v exp body ih =>
    have ih := ih (hind.mono (within_refl _) (within_clet_body v exp body)) h
    have hv : v ∉ c1.vars := hind.right v (by simp [Expression.binders])
    refine ⟨fun h2 h1 hg => ?_, fun h2 h1 => ?_, fun h2 h1 => ?_⟩
    · rcases evaluates_clet.1 h2 with ⟨x, s₀, hexp, hbody⟩ | ⟨l, args, hx, -⟩
      · exact evaluates_clet.2 (.inl ⟨x, s₀, hexp, ih.values hbody (h1.set hv x) hg⟩)
      · cases hx
    · rcases evaluates_clet.1 h2 with ⟨x, s₀, hexp, hbody⟩ | ⟨l, args, hx, -⟩
      · exact evaluates_clet.2 (.inl ⟨x, s₀, hexp, ih.left hbody (h1.set hv x)⟩)
      · cases hx
    have hpure := hind.commute.pure_left h2
    rcases evaluates_clet.1 h2 with ⟨x, s₀, hexp, hbody⟩ | ⟨l, args, hx, hexp⟩
    · have h1' := (hpure.evaluates h1 s₀).set hv x
      exact evaluates_clet.2 (.inl ⟨x, s₀, hexp, ih.right hbody h1'⟩)
    · cases hx; exact evaluates_clet.2 (.inr ⟨_, _, rfl, hexp⟩)
  | case2 v exp body ih =>
    have ih := ih (hind.mono (within_refl _) (within_cphantomLet v exp body)) h
    exact ⟨fun h2 h1 hg => evaluates_cphantomLet.2 (ih.values (evaluates_cphantomLet.1 h2) h1 hg),
      fun h2 h1 => evaluates_cphantomLet.2 (ih.left (evaluates_cphantomLet.1 h2) h1),
      fun h2 h1 => evaluates_cphantomLet.2 (ih.right (evaluates_cphantomLet.1 h2) h1)⟩
  | case3 v body ih =>
    have ih := ih (hind.mono (within_refl _) (within_cnameForDebugger v body)) h
    exact ⟨fun h2 h1 hg =>
        evaluates_cnameForDebugger.2 (ih.values (evaluates_cnameForDebugger.1 h2) h1 hg),
      fun h2 h1 => evaluates_cnameForDebugger.2 (ih.left (evaluates_cnameForDebugger.1 h2) h1),
      fun h2 h1 => evaluates_cnameForDebugger.2 (ih.right (evaluates_cnameForDebugger.1 h2) h1)⟩
  | case4 e1 e2 ih =>
    have ih := ih (hind.mono (within_refl _) (within_csequence_right e1 e2)) h
    refine ⟨fun h2 h1 hg => ?_, fun h2 h1 => ?_, fun h2 h1 => ?_⟩
    · rcases evaluates_csequence.1 h2 with ⟨x, s₀, hexp, hbody⟩ | ⟨l, args, hx, -⟩
      · exact evaluates_csequence.2 (.inl ⟨x, s₀, hexp, ih.values hbody h1 hg⟩)
      · cases hx
    · rcases evaluates_csequence.1 h2 with ⟨x, s₀, hexp, hbody⟩ | ⟨l, args, hx, -⟩
      · exact evaluates_csequence.2 (.inl ⟨x, s₀, hexp, ih.left hbody h1⟩)
      · cases hx
    have hpure := hind.commute.pure_left h2
    rcases evaluates_csequence.1 h2 with ⟨x, s₀, hexp, hbody⟩ | ⟨l, args, hx, hexp⟩
    · exact evaluates_csequence.2 (.inl ⟨x, s₀, hexp,
        ih.right hbody (hpure.evaluates h1 s₀)⟩)
    · cases hx; exact evaluates_csequence.2 (.inr ⟨_, _, rfl, hexp⟩)
  | case5 e h1 h2 h3 h4 => rwa [Expression.setTail] <;> assumption

/-- Evaluating the first part `exp` of the left operand before the right one. -/
theorem hoist {exp body : Expression O}
    (hcomm : M.Commute exp c2) (k : Value X → Bindings X)
    (hk : ∀ x, k x = env ∨ ∃ v, v ∉ c2.vars ∧ k x = Bindings.set env v x)
    (h : M.Computes2 g body c2 t) :
    (∀ {a b w x s₁ s₂ s₃}, M.Evaluates c2 env s (.value (.word b)) s₁ →
      M.Evaluates exp env s₁ (.value x) s₂ → M.Evaluates body (k x) s₂ (.value (.word a)) s₃ →
      g a b = some w → ∃ s', M.Evaluates exp env s (.value x) s' ∧
        M.Evaluates t (k x) s' (.value (.word w)) s₃) ∧
    (∀ {x y l args s₁ s₂ s₃}, M.Evaluates c2 env s (.value y) s₁ →
      M.Evaluates exp env s₁ (.value x) s₂ → M.Evaluates body (k x) s₂ (.exit l args) s₃ →
      ∃ s', M.Evaluates exp env s (.value x) s' ∧ M.Evaluates t (k x) s' (.exit l args) s₃) ∧
    (∀ {y l args s₁ s₂}, M.Evaluates c2 env s (.value y) s₁ →
      M.Evaluates exp env s₁ (.exit l args) s₂ → M.Evaluates exp env s (.exit l args) s₂) ∧
    ∀ {x y l args s₁ s₂ s₃}, M.Evaluates c2 env s (.exit l args) s₁ →
      M.Evaluates exp env s (.value x) s₂ → M.Evaluates body (k x) s₂ (.value y) s₃ →
      ∃ s', M.Evaluates exp env s (.value x) s' ∧ M.Evaluates t (k x) s' (.exit l args) s₁ := by
  have hset : ∀ {x o s s'}, M.Evaluates c2 env s o s' → M.Evaluates c2 (k x) s o s' := by
    intro x o s s' h2
    rcases hk x with hx | ⟨v, hv, hx⟩
    · rwa [hx]
    · rw [hx]; exact h2.set hv x
  refine ⟨fun h2 hexp hbody hg => ?_, fun h2 hexp hbody => ?_, fun h2 hexp => ?_,
    fun h2 hexp hbody => ?_⟩
  · obtain ⟨s', hexp', h2'⟩ := hcomm.swap h2 hexp
    exact ⟨s', hexp', h.values (hset h2') hbody hg⟩
  · obtain ⟨s', hexp', h2'⟩ := hcomm.swap h2 hexp; exact ⟨s', hexp', h.left (hset h2') hbody⟩
  · have hpure := hcomm.symm.pure_left hexp
    obtain ⟨rfl, -⟩ := hpure.quiet.evaluates h2
    exact hexp
  have hpure := hcomm.pure_left h2
  obtain ⟨rfl, -⟩ := hpure.quiet.evaluates hexp
  exact ⟨_, hexp, h.right (hset h2) hbody⟩

theorem Computes2.setTail_left (hind : M.Independent c1 c2) (h : M.Computes2 g c1.tail c2 t) :
    M.Computes2 g c1 c2 (c1.setTail t) := by
  fun_induction Expression.tail c1 with
  | case1 v exp body ih =>
    have ih := ih (hind.mono (within_clet_body v exp body) (within_refl _)) h
    have hv : v ∉ c2.vars := hind.left v (by simp [Expression.binders])
    have hcomm := (hind.mono (within_clet_exp v exp body) (within_refl _)).commute
    refine ⟨fun {env s} _ _ _ _ _ h2 h1 hg => ?_, fun {env s} _ _ _ _ _ h2 h1 => ?_,
      fun {env s} _ _ _ _ _ h2 h1 => ?_⟩
    all_goals
      obtain ⟨hvalues, hleft, hexit, hright⟩ := hoist (s := s) hcomm
        (fun x => Bindings.set env v x) (fun _ => .inr ⟨v, hv, rfl⟩) ih
    · rcases evaluates_clet.1 h1 with ⟨x, s₀, hexp, hbody⟩ | ⟨l, args, hx, -⟩
      · obtain ⟨s', hexp', ht⟩ := hvalues h2 hexp hbody hg
        exact evaluates_clet.2 (.inl ⟨x, s', hexp', ht⟩)
      · cases hx
    · rcases evaluates_clet.1 h1 with ⟨x, s₀, hexp, hbody⟩ | ⟨l, args, hx, hexp⟩
      · obtain ⟨s', hexp', ht⟩ := hleft h2 hexp hbody
        exact evaluates_clet.2 (.inl ⟨x, s', hexp', ht⟩)
      · cases hx; exact evaluates_clet.2 (.inr ⟨_, _, rfl, hexit h2 hexp⟩)
    rcases evaluates_clet.1 h1 with ⟨x, s₀, hexp, hbody⟩ | ⟨l, args, hx, -⟩
    · obtain ⟨s', hexp', ht⟩ := hright h2 hexp hbody
      exact evaluates_clet.2 (.inl ⟨x, s', hexp', ht⟩)
    · cases hx
  | case2 v exp body ih =>
    have ih := ih (hind.mono (within_cphantomLet v exp body) (within_refl _)) h
    exact ⟨fun h2 h1 hg => evaluates_cphantomLet.2 (ih.values h2 (evaluates_cphantomLet.1 h1) hg),
      fun h2 h1 => evaluates_cphantomLet.2 (ih.left h2 (evaluates_cphantomLet.1 h1)),
      fun h2 h1 => evaluates_cphantomLet.2 (ih.right h2 (evaluates_cphantomLet.1 h1))⟩
  | case3 v body ih =>
    have ih := ih (hind.mono (within_cnameForDebugger v body) (within_refl _)) h
    exact ⟨fun h2 h1 hg =>
        evaluates_cnameForDebugger.2 (ih.values h2 (evaluates_cnameForDebugger.1 h1) hg),
      fun h2 h1 => evaluates_cnameForDebugger.2 (ih.left h2 (evaluates_cnameForDebugger.1 h1)),
      fun h2 h1 => evaluates_cnameForDebugger.2 (ih.right h2 (evaluates_cnameForDebugger.1 h1))⟩
  | case4 e1 e2 ih =>
    have ih := ih (hind.mono (within_csequence_right e1 e2) (within_refl _)) h
    have hcomm := (hind.mono (within_csequence_left e1 e2) (within_refl _)).commute
    refine ⟨fun {env s} _ _ _ _ _ h2 h1 hg => ?_, fun {env s} _ _ _ _ _ h2 h1 => ?_,
      fun {env s} _ _ _ _ _ h2 h1 => ?_⟩
    all_goals
      obtain ⟨hvalues, hleft, hexit, hright⟩ := hoist (s := s) hcomm
        (fun _ => env) (fun _ => .inl rfl) ih
    · rcases evaluates_csequence.1 h1 with ⟨x, s₀, hexp, hbody⟩ | ⟨l, args, hx, -⟩
      · obtain ⟨s', hexp', ht⟩ := hvalues h2 hexp hbody hg
        exact evaluates_csequence.2 (.inl ⟨x, s', hexp', ht⟩)
      · cases hx
    · rcases evaluates_csequence.1 h1 with ⟨x, s₀, hexp, hbody⟩ | ⟨l, args, hx, hexp⟩
      · obtain ⟨s', hexp', ht⟩ := hleft h2 hexp hbody
        exact evaluates_csequence.2 (.inl ⟨x, s', hexp', ht⟩)
      · cases hx; exact evaluates_csequence.2 (.inr ⟨_, _, rfl, hexit h2 hexp⟩)
    rcases evaluates_csequence.1 h1 with ⟨x, s₀, hexp, hbody⟩ | ⟨l, args, hx, -⟩
    · obtain ⟨s', hexp', ht⟩ := hright h2 hexp hbody
      exact evaluates_csequence.2 (.inl ⟨x, s', hexp', ht⟩)
    · cases hx
  | case5 e h1 h2 h3 h4 => rwa [Expression.setTail] <;> assumption

theorem within_tail (e : Expression O) : Within e.tail e := by
  have htrans : ∀ {a b c : Expression O}, Within a b → Within b c → Within a c :=
    fun h h' => ⟨fun v hv => h'.vars v (h.vars v hv), fun v hv => h'.binders v (h.binders v hv),
      fun ok hc => h.confined ok (h'.confined ok hc)⟩
  fun_induction Expression.tail e with
  | case1 v exp body ih => exact htrans ih (within_clet_body v exp body)
  | case2 v exp body ih => exact htrans ih (within_cphantomLet v exp body)
  | case3 v body ih => exact htrans ih (within_cnameForDebugger v body)
  | case4 e1 e2 ih => exact htrans ih (within_csequence_right e1 e2)
  | case5 e => exact within_refl e

/-- What `map_tail2` does to independent operands. -/
theorem Computes2.setTail (hind : M.Independent c1 c2) (h : M.Computes2 g c1.tail c2.tail t) :
    M.Computes2 g c1 c2 (c2.setTail (c1.setTail t)) :=
  (h.setTail_left (hind.mono (within_refl c1) (within_tail c2))).setTail_right hind

theorem computes2_cop {op : Operation O} (hop : op.isWord = true) (c1 c2 : Expression O) :
    M.Computes2 (M.word2 op) c1 c2 (cop op [c1, c2]) :=
  ⟨fun h2 h1 hv => (evaluates_cop2 hop).2 (.inl ⟨_, _, _, _, h2, h1, hv, rfl⟩),
    fun h2 h1 => (evaluates_cop2 hop).2 (.inr ⟨_, _, rfl, .inr ⟨_, _, h2, h1⟩⟩),
    fun h2 _ => (evaluates_cop2 hop).2 (.inr ⟨_, _, rfl, .inl h2⟩)⟩

theorem Computes2.mono {g' : Nativeint → Nativeint → Option Nativeint}
    (h : M.Computes2 g c1 c2 e) (hg : ∀ {a b v}, g' a b = some v → g a b = some v) :
    M.Computes2 g' c1 c2 e :=
  ⟨fun h2 h1 hv => h.values h2 h1 (hg hv), h.left, h.right⟩

/-- The left operand is a constant. -/
theorem Computes2.of_const_left {w : Nativeint} (hk : getConst (core c1) = some w)
    (h : M.Relates (fun a b => ∀ v, g w a = some v → b = v) c2 e) : M.Computes2 g c1 c2 e := by
  refine ⟨fun h2 h1 hv => ?_, fun h2 h1 => ?_, fun h2 h1 => ?_⟩
  · obtain ⟨ha, rfl⟩ := (evaluates_const hk).1 h1
    cases ha
    obtain ⟨o', he, hrel⟩ := h _ _ _ _ h2 (fun x hx => nomatch hx)
    cases hrel with
    | word hab => rwa [← hab _ hv]
  · obtain ⟨hx, -⟩ := (evaluates_const hk).1 h1; cases hx
  obtain ⟨o', he, hrel⟩ := h _ _ _ _ h2 (fun x hx => nomatch hx)
  cases hrel with
  | exit => exact he

/-- The right operand is a constant. -/
theorem Computes2.of_const_right {w : Nativeint} (hk : getConst (core c2) = some w)
    (h : M.Relates (fun a b => ∀ v, g a w = some v → b = v) c1 e) : M.Computes2 g c1 c2 e := by
  refine ⟨fun h2 h1 hv => ?_, fun h2 h1 => ?_, fun h2 h1 => ?_⟩
  · obtain ⟨hb, rfl⟩ := (evaluates_const hk).1 h2
    cases hb
    obtain ⟨o', he, hrel⟩ := h _ _ _ _ h1 (fun x hx => nomatch hx)
    cases hrel with
    | word hab => rwa [← hab _ hv]
  · obtain ⟨-, rfl⟩ := (evaluates_const hk).1 h2
    obtain ⟨o', he, hrel⟩ := h _ _ _ _ h1 (fun x hx => nomatch hx)
    cases hrel with
    | exit => exact he
  · obtain ⟨hx, -⟩ := (evaluates_const hk).1 h2; cases hx

/-- Every outcome of `c` is one of `d`. -/
def Refines (M : Machine O X σ) (c d : Expression O) : Prop :=
  ∀ env s o s', M.Evaluates c env s o s' → M.Evaluates d env s o s'

theorem Computes2.congr (h1 : M.Refines c1 d1) (h2 : M.Refines c2 d2)
    (h : M.Computes2 g d1 d2 e) : M.Computes2 g c1 c2 e :=
  ⟨fun hc2 hc1 hv => h.values (h2 _ _ _ _ hc2) (h1 _ _ _ _ hc1) hv,
    fun hc2 hc1 => h.left (h2 _ _ _ _ hc2) (h1 _ _ _ _ hc1),
    fun hc2 hc1 => h.right (h2 _ _ _ _ hc2) (h1 _ _ _ _ hc1)⟩

/-- A further operation on the result. -/
theorem Computes2.andThen {f : Nativeint → Nativeint} {d : Expression O}
    (h : M.Computes2 g c1 c2 d) (hf : M.Relates (fun a b => b = f a) d e) :
    M.Computes2 (fun a b => (g a b).map f) c1 c2 e := by
  refine ⟨fun h2 h1 hv => ?_, fun h2 h1 => ?_, fun h2 h1 => ?_⟩
  · obtain ⟨v', hv', rfl⟩ := Option.map_eq_some_iff.1 hv
    obtain ⟨o', he, hrel⟩ := hf _ _ _ _ (h.values h2 h1 hv') (fun x hx => nomatch hx)
    cases hrel with
    | word hab => rwa [← hab]
  · obtain ⟨o', he, hrel⟩ := hf _ _ _ _ (h.left h2 h1) (fun x hx => nomatch hx)
    cases hrel with
    | exit => exact he
  obtain ⟨o', he, hrel⟩ := hf _ _ _ _ (h.right h2 h1) (fun x hx => nomatch hx)
  cases hrel with
  | exit => exact he

variable {op : Operation O} {w : Nativeint} {f : Nativeint → Nativeint} {k : Expression O}

/-- A constant operation is taken off the left operand. -/
theorem Computes2.of_cop_left (hf : opWithConst op w = some f) (hk : getConst (core k) = some w)
    (h : M.Computes2 (fun a b => g (f a) b) c1 c2 e) : M.Computes2 g (cop op [c1, k]) c2 e := by
  have hop := isWord_of_opWithConst hf
  refine ⟨fun h2 h1 hv => ?_, fun h2 h1 => ?_, fun h2 h1 => ?_⟩
  · rcases (evaluates_cop_const hop hk).1 h1 with ⟨a, v, h1, ha, hx⟩ | ⟨l, args, hx, -⟩
    · rw [word2_of_opWithConst hf, Option.some.injEq] at ha
      cases hx
      exact h.values h2 h1 (by rw [ha]; exact hv)
    · cases hx
  · rcases (evaluates_cop_const hop hk).1 h1 with ⟨a, v, h1, ha, hx⟩ | ⟨l, args, hx, h1⟩
    · cases hx
    · cases hx; exact h.left h2 h1
  rcases (evaluates_cop_const hop hk).1 h1 with ⟨a, v, h1, ha, hx⟩ | ⟨l, args, hx, h1⟩
  · exact h.right h2 h1
  · cases hx

/-- A constant operation is taken off the right operand. -/
theorem Computes2.of_cop_right (hf : opWithConst op w = some f) (hk : getConst (core k) = some w)
    (h : M.Computes2 (fun a b => g a (f b)) c1 c2 e) : M.Computes2 g c1 (cop op [c2, k]) e := by
  have hop := isWord_of_opWithConst hf
  refine ⟨fun h2 h1 hv => ?_, fun h2 h1 => ?_, fun h2 h1 => ?_⟩
  · rcases (evaluates_cop_const hop hk).1 h2 with ⟨b, v, h2, hb, hx⟩ | ⟨l, args, hx, -⟩
    · rw [word2_of_opWithConst hf, Option.some.injEq] at hb
      cases hx
      exact h.values h2 h1 (by rw [hb]; exact hv)
    · cases hx
  · rcases (evaluates_cop_const hop hk).1 h2 with ⟨b, v, h2, hb, hx⟩ | ⟨l, args, hx, -⟩
    · exact h.left h2 h1
    · cases hx
  rcases (evaluates_cop_const hop hk).1 h2 with ⟨b, v, h2, hb, hx⟩ | ⟨l, args, hx, h2⟩
  · cases hx
  · cases hx; exact h.right h2 h1

/-- In terms of the plain operation. -/
theorem Computes2.evaluates (hop : op.isWord = true) (h : M.Computes2 g c1 c2 e)
    (hplain : M.Evaluates (cop op [c1, c2]) env s o s')
    (hg : ∀ {a b v s₁}, M.Evaluates c2 env s (.value (.word b)) s₁ → M.word2 op a b = some v →
      g a b = some v)
    (hstuck : ∀ l args s₁, M.Evaluates c2 env s (.exit l args) s₁ →
      ∃ x s₂, M.Evaluates c1 env s (.value x) s₂) : M.Evaluates e env s o s' := by
  rcases (evaluates_cop2 hop).1 hplain with ⟨a, b, v, s₁, h2, h1, hv, rfl⟩ |
    ⟨l, args, rfl, h2 | ⟨x, s₁, h2, h1⟩⟩
  · exact h.values h2 h1 (hg h2 hv)
  · obtain ⟨x, s₂, h1⟩ := hstuck l args _ h2; exact h.right h2 h1
  · exact h.left h2 h1

end Machine

/-! ## §5 Independence is hereditary -/

theorem Hereditary.and {Φ Ψ : Expression O → Prop} (hΦ : Hereditary Φ) (hΨ : Hereditary Ψ) :
    Hereditary fun e => Φ e ∧ Ψ e where
  const hk := ⟨hΦ.const hk, hΨ.const hk⟩
  cop_const hop hk := and_congr (hΦ.cop_const hop hk) (hΨ.cop_const hop hk)
  const_cop hop hk := and_congr (hΦ.const_cop hop hk) (hΨ.const_cop hop hk)
  clet h := ⟨⟨(hΦ.clet h.1).1, (hΨ.clet h.2).1⟩,
    fun ht => ⟨(hΦ.clet h.1).2 ht.1, (hΨ.clet h.2).2 ht.2⟩⟩
  cphantomLet := and_congr hΦ.cphantomLet hΨ.cphantomLet
  cnameForDebugger := and_congr hΦ.cnameForDebugger hΨ.cnameForDebugger
  csequence := by
    intro e1 e2
    rw [hΦ.csequence, hΨ.csequence]
    exact and_and_and_comm
  cload h := ⟨hΦ.cload h.1, hΨ.cload h.2⟩

/-- A constant under debugging constructs mentions no variable and does nothing. -/
theorem const_trivial (hk : (getConst (core k)).isSome) :
    k.vars = [] ∧ k.binders = [] ∧ ∀ ok, k.confined ok = true := by
  induction k using core_induction with
  | phantom v exp body ih | named v body ih => exact ih hk
  | other e h1 h2 =>
    cases e with
    | cconstInt n | cconstNatint n => exact ⟨rfl, rfl, fun _ => rfl⟩
    | cphantomLet v exp body => exact absurd rfl (h1 v exp body)
    | cnameForDebugger v body => exact absurd rfl (h2 v body)
    | _ => cases hk

theorem hereditary_vars (P : BackendVar → Prop) :
    Hereditary fun e : Expression O => ∀ v ∈ e.vars, P v where
  const := by
    intro k hk
    rw [(const_trivial (by rwa [core_const hk])).1]
    simp
  cop_const := by
    intro op c k _ hk
    simp [Expression.vars, Expression.varsList, (const_trivial hk).1]
  const_cop := by
    intro op c k _ hk
    simp [Expression.vars, Expression.varsList, (const_trivial hk).1]
  clet := by
    intro v exp body h
    simp only [Expression.vars, List.cons_append, List.mem_cons, List.mem_append] at h ⊢
    exact ⟨fun w hw => h w (.inr (.inr hw)), fun ht w hw => by
      rcases hw with hw | hw | hw
      · exact h w (.inl hw)
      · exact h w (.inr (.inl hw))
      · exact ht w hw⟩
  cphantomLet := Iff.rfl
  cnameForDebugger := Iff.rfl
  csequence := by
    intro e1 e2
    simp [Expression.vars, or_imp, forall_and]
  cload h := h

theorem hereditary_binders (P : BackendVar → Prop) :
    Hereditary fun e : Expression O => ∀ v ∈ e.binders, P v where
  const := by
    intro k hk
    rw [(const_trivial (by rwa [core_const hk])).2.1]
    simp
  cop_const := by
    intro op c k _ hk
    simp [Expression.binders, Expression.bindersList, (const_trivial hk).2.1]
  const_cop := by
    intro op c k _ hk
    simp [Expression.binders, Expression.bindersList, (const_trivial hk).2.1]
  clet := by
    intro v exp body h
    simp only [Expression.binders, List.cons_append, List.mem_cons, List.mem_append] at h ⊢
    exact ⟨fun w hw => h w (.inr (.inr hw)), fun ht w hw => by
      rcases hw with hw | hw | hw
      · exact h w (.inl hw)
      · exact h w (.inr (.inl hw))
      · exact ht w hw⟩
  cphantomLet := Iff.rfl
  cnameForDebugger := Iff.rfl
  csequence := by
    intro e1 e2
    simp [Expression.binders, or_imp, forall_and]
  cload h := h

/-- Operations are judged by what they do to the state. -/
theorem hereditary_confined {ok : Operation O → Bool}
    (hword : ∀ op, op.isWord = true → ok op = true)
    (hload : ∀ ch ch' m a, ok (.cload ch m a) = ok (.cload ch' m a)) :
    Hereditary fun e : Expression O => e.confined ok = true where
  const hk := (const_trivial (by rwa [core_const hk])).2.2 ok
  cop_const := by
    intro op c k hop hk
    simp [Expression.confined, Expression.confinedList, hword op hop, (const_trivial hk).2.2]
  const_cop := by
    intro op c k hop hk
    simp [Expression.confined, Expression.confinedList, hword op hop, (const_trivial hk).2.2]
  clet := by
    intro v exp body h
    rw [Expression.confined, Bool.and_eq_true] at h
    exact ⟨h.2, fun ht => by rw [Expression.confined, h.1, ht]; rfl⟩
  cphantomLet := Iff.rfl
  cnameForDebugger := Iff.rfl
  csequence := by
    intro e1 e2
    rw [Expression.confined, Bool.and_eq_true]
  cload := by
    intro ch ch' m a args h
    rw [Expression.confined, hload ch ch'] at h
    rwa [Expression.confined]

namespace Machine

variable {M : Machine O X σ} {c1 c2 d : Expression O}

theorem hereditary_quiet : Hereditary M.Quiet :=
  hereditary_confined (fun op hop => by cases op <;> first | rfl | cases hop) fun _ _ _ _ => rfl

theorem hereditary_pure : Hereditary M.Pure :=
  hereditary_confined (fun op hop => by cases op <;> first | rfl | cases hop) fun _ _ _ _ => rfl

theorem hereditary_commute (c2 : Expression O) : Hereditary fun c1 => M.Commute c1 c2 where
  const hk := .inr (.inl ((hereditary_pure).const hk))
  cop_const hop hk := or_congr (and_congr_left' ((hereditary_quiet).cop_const hop hk))
    (or_congr_left ((hereditary_pure).cop_const hop hk))
  const_cop hop hk := or_congr (and_congr_left' ((hereditary_quiet).const_cop hop hk))
    (or_congr_left ((hereditary_pure).const_cop hop hk))
  clet := by
    intro v exp body h
    rcases h with ⟨hq, hq2⟩ | hp | hp2
    · obtain ⟨hbody, hset⟩ := (hereditary_quiet).clet hq
      refine ⟨.inl ⟨hbody, hq2⟩, fun ht => ?_⟩
      rcases ht with ⟨ht, -⟩ | ht | ht
      · exact .inl ⟨hset ht, hq2⟩
      · exact .inl ⟨hset ht.quiet, hq2⟩
      · exact .inr (.inr ht)
    · obtain ⟨hbody, hset⟩ := (hereditary_pure).clet hp
      refine ⟨.inr (.inl hbody), fun ht => ?_⟩
      rcases ht with ⟨ht, hq2⟩ | ht | ht
      · exact .inl ⟨((hereditary_quiet).clet hp.quiet).2 ht, hq2⟩
      · exact .inr (.inl (hset ht))
      · exact .inr (.inr ht)
    · exact ⟨.inr (.inr hp2), fun _ => .inr (.inr hp2)⟩
  cphantomLet := Iff.rfl
  cnameForDebugger := Iff.rfl
  csequence := by
    intro e1 e2
    constructor
    · rintro (⟨hq, hq2⟩ | hp | hp2)
      · obtain ⟨h1, h2⟩ := (hereditary_quiet).csequence.1 hq
        exact ⟨.inl ⟨h1, hq2⟩, .inl ⟨h2, hq2⟩⟩
      · obtain ⟨h1, h2⟩ := (hereditary_pure).csequence.1 hp
        exact ⟨.inr (.inl h1), .inr (.inl h2)⟩
      · exact ⟨.inr (.inr hp2), .inr (.inr hp2)⟩
    rintro ⟨⟨h1, hq2⟩ | h1 | hp2, ⟨h2, hq2'⟩ | h2 | hp2'⟩
    · exact .inl ⟨(hereditary_quiet).csequence.2 ⟨h1, h2⟩, hq2⟩
    · exact .inl ⟨(hereditary_quiet).csequence.2 ⟨h1, h2.quiet⟩, hq2⟩
    · exact .inr (.inr hp2')
    · exact .inl ⟨(hereditary_quiet).csequence.2 ⟨h1.quiet, h2⟩, hq2'⟩
    · exact .inr (.inl ((hereditary_pure).csequence.2 ⟨h1, h2⟩))
    · exact .inr (.inr hp2')
    all_goals exact .inr (.inr hp2)
  cload h := h.imp (fun h => ⟨hereditary_quiet.cload h.1, h.2⟩) (Or.imp hereditary_pure.cload id)

theorem Independent.symm (h : M.Independent c1 c2) : M.Independent c2 c1 :=
  ⟨h.right, h.left, h.commute.symm⟩

theorem hereditary_independent (c2 : Expression O) : Hereditary fun c1 => M.Independent c1 c2 := by
  have h := ((hereditary_binders fun v => v ∉ c2.vars).and
    (hereditary_vars fun v => v ∉ c2.binders)).and (hereditary_commute (M := M) c2)
  have heq : (fun c1 => M.Independent c1 c2) = fun c1 => ((∀ v ∈ c1.binders, v ∉ c2.vars) ∧
      ∀ v ∈ c1.vars, v ∉ c2.binders) ∧ M.Commute c1 c2 := by
    funext c1
    refine propext ⟨fun h => ⟨⟨h.left, fun v hv hv' => h.right v hv' hv⟩, h.commute⟩,
      fun h => ⟨h.1.1, fun v hv hv' => h.1.2 v hv' hv, h.2⟩⟩
  rw [heq]
  exact h

/-- What is built from the operands is as independent as they are. -/
theorem Independent.becomes {R S : Nativeint → Nativeint → Prop} {n m : Nat}
    (h : M.Independent c1 c2) (h1 : Becomes R n c1 d1)
    (h2 : Becomes S m c2 d2) : M.Independent d1 d2 := by
  have hleft : M.Independent d1 c2 := h1.hereditary (hereditary_independent c2) h
  exact (h2.hereditary (hereditary_independent d1) hleft.symm).symm

theorem independent_core : M.Independent (core c1) (core c2) ↔ M.Independent c1 c2 := by
  rw [(hereditary_independent (core c2)).core_iff]
  constructor
  · exact fun h => (((hereditary_independent c1).core_iff c2).1 h.symm).symm
  · exact fun h => (((hereditary_independent c1).core_iff c2).2 h.symm).symm

variable {op : Operation O}

/-- An operation with a constant is as independent as its operand. -/
theorem Independent.operand_left (hop : op.isWord = true)
    (hk : (getConst (core k)).isSome) (h : M.Independent (cop op [c1, k]) c2) :
    M.Independent c1 c2 := ((hereditary_independent c2).cop_const hop hk).1 h

theorem Independent.operand_right (hop : op.isWord = true)
    (hk : (getConst (core k)).isSome) (h : M.Independent c1 (cop op [c2, k])) :
    M.Independent c1 c2 := (h.symm.operand_left hop hk).symm

theorem Independent.tails (h : M.Independent c1 c2) : M.Independent c1.tail c2.tail :=
  h.mono (within_tail c1) (within_tail c2)

end Machine

end Oxcaml.Backend
