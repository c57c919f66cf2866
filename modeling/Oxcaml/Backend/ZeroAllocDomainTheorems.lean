/-
Oxcaml.Backend.ZeroAllocDomainTheorems — what symbolic values mean.

Under an assignment of `Bot < Safe < Top` to the variables a value is one of the
three, and an element of that chain is known from whether it is `Bot` and whether
it is `Top`. So every operation has two statements, about `live` and `tops`.

`Transforms.add` replaces the transform that is bound to the same set of
variables, where `Transforms.join` flattens the two. When the one that is replaced
had `Top` and the new one has not, `Top` is lost. `Covers` says that nothing is
lost when a transform is added (§3). §4 is about results: a value, or the exception
`Widen` where the flag allows it.
-/
import Oxcaml.Backend.ZeroAllocDomain
import Mathlib.Tactic

namespace Oxcaml.Backend.ZeroAlloc

open List (foldl_cons mem_cons)

set_option linter.all false

/-! ## §1 Meaning -/

/-- The resolved values. -/
inductive Level
  | bot
  | safe
  | top
  deriving DecidableEq

namespace Level

def rank : Level → Nat
  | bot => 0
  | safe => 1
  | top => 2

instance : LinearOrder Level := LinearOrder.lift' rank fun a b h => by
  cases a <;> cases b <;> first | rfl | cases h

theorem eq_iff (a b : Level) : a = b ↔ (a ≠ bot ↔ b ≠ bot) ∧ (a = top ↔ b = top) := by
  cases a <;> cases b <;> simp

theorem le_iff (a b : Level) : a ≤ b ↔ (a ≠ bot → b ≠ bot) ∧ (a = top → b = top) := by
  cases a <;> cases b <;> simp <;> decide

@[simp] theorem le_top (a : Level) : a ≤ top := by
  cases a <;> decide

@[simp] theorem bot_le (a : Level) : bot ≤ a := by
  cases a <;> decide

@[simp] theorem max_ne_bot (a b : Level) : max a b ≠ bot ↔ a ≠ bot ∨ b ≠ bot := by
  cases a <;> cases b <;> decide

@[simp] theorem max_eq_top (a b : Level) : max a b = top ↔ a = top ∨ b = top := by
  cases a <;> cases b <;> decide

/-- The least upper bound of a list. -/
def lub (l : List Level) : Level := l.foldr max bot

theorem lub_ne_bot (l : List Level) : lub l ≠ bot ↔ ∃ a ∈ l, a ≠ bot := by
  induction l with
  | nil => simp [lub]
  | cons a l ih =>
    have h : lub (a :: l) = max a (lub l) := rfl
    rw [h, max_ne_bot, ih]
    simp

theorem lub_eq_top (l : List Level) : lub l = top ↔ top ∈ l := by
  induction l with
  | nil => simp [lub]
  | cons a l ih =>
    have h : lub (a :: l) = max a (lub l) := rfl
    rw [h, max_eq_top, ih, mem_cons, eq_comm]

/-- `Bot` if one of the two is, and else the least upper bound. -/
def seq (a b : Level) : Level := if a = bot ∨ b = bot then bot else max a b

theorem seq_ne_bot (a b : Level) : seq a b ≠ bot ↔ a ≠ bot ∧ b ≠ bot := by
  cases a <;> cases b <;> decide

theorem seq_eq_top (a b : Level) : seq a b = top ↔ a ≠ bot ∧ b ≠ bot ∧ (a = top ∨ b = top) := by
  cases a <;> cases b <;> decide

theorem seq_comm (a b : Level) : seq a b = seq b a := by
  cases a <;> cases b <;> decide

@[simp] theorem bot_seq (a : Level) : seq bot a = bot := by
  cases a <;> decide

@[simp] theorem safe_seq (a : Level) : seq safe a = a := by
  cases a <;> decide

@[simp] theorem seq_bot (a : Level) : seq a bot = bot := by
  cases a <;> decide

@[simp] theorem seq_safe (a : Level) : seq a safe = a := by
  cases a <;> decide

@[simp] theorem seq_self (a : Level) : seq a a = a := by
  cases a <;> decide

theorem seq_le_seq {a a' b b' : Level} (ha : a ≤ a') (hb : b ≤ b') : seq a b ≤ seq a' b' := by
  rw [le_iff] at ha hb ⊢
  simp only [seq_ne_bot, seq_eq_top]
  tauto

section

variable {α : Type} (g : α → Level) (l : List α) (m : Level)

theorem foldl_seq_ne_bot :
    l.foldl (fun m p => seq (g p) m) m ≠ bot ↔ m ≠ bot ∧ ∀ p ∈ l, g p ≠ bot := by
  induction l generalizing m with
  | nil => simp
  | cons p l ih => rw [foldl_cons, ih, seq_ne_bot, List.forall_mem_cons]; tauto

theorem foldl_seq_eq_top : l.foldl (fun m p => seq (g p) m) m = top ↔
      m ≠ bot ∧ (∀ p ∈ l, g p ≠ bot) ∧ (m = top ∨ ∃ p ∈ l, g p = top) := by
  induction l generalizing m with
  | nil => cases m <;> simp
  | cons p l ih =>
    rw [foldl_cons, ih, seq_ne_bot, seq_eq_top, List.forall_mem_cons]
    simp only [mem_cons, exists_eq_or_imp]
    tauto

theorem foldl_max_ne_bot :
    l.foldl (fun m p => max (g p) m) m ≠ bot ↔ m ≠ bot ∨ ∃ p ∈ l, g p ≠ bot := by
  induction l generalizing m with
  | nil => simp
  | cons p l ih =>
    rw [foldl_cons, ih, max_ne_bot]
    simp only [mem_cons, exists_eq_or_imp]
    tauto

theorem foldl_max_eq_top :
    l.foldl (fun m p => max (g p) m) m = top ↔ m = top ∨ ∃ p ∈ l, g p = top := by
  induction l generalizing m with
  | nil => simp
  | cons p l ih =>
    rw [foldl_cons, ih, max_eq_top]
    simp only [mem_cons, exists_eq_or_imp]
    tauto

end

end Level

variable {ν ω : Type} [LinearOrder ν] [DecidableEq ω]

section

variable (ρ : ν → Level)

/-- `Bot` when some member is, and else the least upper bound of the members. -/
def Transform.meaning (tr : Transform ν ω) : Level :=
  let members := tr.key.map ρ ++ if tr.getTop.isSome then [.top] else []
  if Level.bot ∈ members then .bot else Level.lub members

/-- The least upper bound of the members. -/
def Join.meaning (j : Join ν ω) : Level :=
  Level.lub (j.get.vars.keys.map ρ ++ (Transforms.elements j.get.trs).map (Transform.meaning ρ) ++
    (if j.getTop.isSome then [.top] else []) ++ if j.hasSafe then [.safe] else [])

def V.meaning : V ν ω → Level
  | .top _ => .top
  | .safe => .safe
  | .bot => .bot
  | .var x _ => ρ x
  | .ofTransform tr => tr.meaning ρ
  | .ofJoin j => j.meaning ρ

end

/-! ## §2 Variables and transforms -/

namespace Vars

variable {t : Vars ν ω}

theorem mem_keys_iff {x : ν} : x ∈ t.keys ↔ ∃ w, t[x]? = some w := by
  rw [Std.ExtTreeMap.mem_keys, Std.ExtTreeMap.mem_iff_isSome_getElem?, Option.isSome_iff_exists]

/-- Keys are in order, so they are known from their members. -/
theorem keys_ext {t' : Vars ν ω} (h : ∀ x, x ∈ t.keys ↔ x ∈ t'.keys) : t.keys = t'.keys := by
  refine List.Perm.eq_of_pairwise ?_ Std.ExtTreeMap.ordered_keys Std.ExtTreeMap.ordered_keys
    ((List.perm_ext_iff_of_nodup Std.ExtTreeMap.nodup_keys Std.ExtTreeMap.nodup_keys).2 h)
  intro a b _ _ hab hba
  rw [compare_lt_iff_lt] at hab hba
  exact absurd (lt_trans hab hba) (lt_irrefl a)

theorem getElem?_update (t : Vars ν ω) (x y : ν) (w : Witnesses ω) :
    (t.update x w)[y]? = if x = y then some ((t[x]?).getD ∅ ∪ w) else t[y]? := by
  rw [update]
  split <;> rename_i h <;> simp only [Std.ExtTreeMap.getElem?_insert, h] <;> simp

/-- Some variable with its witnesses satisfies `Q`. -/
def Any (Q : ν → Witnesses ω → Prop) (t : Vars ν ω) : Prop :=
  ∃ (x : ν) (w : Witnesses ω), t[x]? = some w ∧ Q x w

/-- Properties that are not lost when witnesses are joined. -/
def Lasting (Q : ν → Witnesses ω → Prop) : Prop := ∀ x w w', Q x (w ∪ w') ↔ Q x w ∨ Q x w'

theorem lasting_var (Q : ν → Prop) : Lasting (ω := ω) fun x _ => Q x := fun _ _ _ =>
  or_self_iff.symm

theorem lasting_witnesses : Lasting (ν := ν) fun _ (w : Witnesses ω) => w ≠ ∅ := fun _ w w' => by
  dsimp only
  rw [ne_eq, Finset.union_eq_empty, not_and_or]

section

variable {Q : ν → Witnesses ω → Prop} (hQ : Lasting Q)

include hQ

theorem any_update (t : Vars ν ω) (x : ν) (w : Witnesses ω) :
    (t.update x w).Any Q ↔ t.Any Q ∨ Q x w := by
  simp only [Any, getElem?_update]
  constructor
  · rintro ⟨y, w', h, hy⟩
    split at h
    · rename_i hxy
      cases h
      subst hxy
      rcases (hQ _ _ _).1 hy with hy | hy
      · cases hx : t[x]? with
        | none =>
          rw [hx] at hy
          exact .inr ((hQ x ∅ w).2 (.inl hy) |> (Finset.empty_union w ▸ ·))
        | some w0 => exact .inl ⟨x, w0, hx, by simpa [hx] using hy⟩
      · exact .inr hy
    · exact .inl ⟨y, w', h, hy⟩
  rintro (⟨y, w', h, hy⟩ | hx)
  · by_cases hxy : x = y
    · subst hxy; exact ⟨x, w' ∪ w, by simp [h], (hQ _ _ _).2 (.inl hy)⟩
    · exact ⟨y, w', by simp [hxy, h], hy⟩
  · exact ⟨x, (t[x]?).getD ∅ ∪ w, by simp, (hQ _ _ _).2 (.inr hx)⟩

theorem any_join (t1 t2 : Vars ν ω) : (t1.join t2).Any Q ↔ t1.Any Q ∨ t2.Any Q := by
  have hfold : ∀ (l : List (ν × Witnesses ω)) (t : Vars ν ω),
      (l.foldl (fun acc p => acc.update p.1 p.2) t).Any Q ↔ t.Any Q ∨ ∃ p ∈ l, Q p.1 p.2 := by
    intro l
    induction l with
    | nil => simp
    | cons p l ih =>
      intro t
      rw [foldl_cons, ih, any_update hQ]
      simp only [mem_cons, exists_eq_or_imp]
      tauto
  rw [join, Std.ExtTreeMap.foldl_eq_foldl_toList, hfold]
  simp only [Prod.exists, Std.ExtTreeMap.mem_toList_iff_getElem?_eq_some]
  rfl

end

theorem mem_keys_iff_any {x : ν} : x ∈ t.keys ↔ t.Any fun y _ => y = x := by
  rw [mem_keys_iff]
  constructor
  · rintro ⟨w, h⟩; exact ⟨x, w, h, rfl⟩
  · rintro ⟨_, w, h, rfl⟩; exact ⟨w, h⟩

theorem mem_keys_update (t : Vars ν ω) (x y : ν) (w : Witnesses ω) :
    y ∈ (t.update x w).keys ↔ y = x ∨ y ∈ t.keys := by
  rw [mem_keys_iff_any, mem_keys_iff_any, any_update (lasting_var (· = y)), or_comm, eq_comm]

theorem mem_keys_join (t1 t2 : Vars ν ω) (y : ν) :
    y ∈ (t1.join t2).keys ↔ y ∈ t1.keys ∨ y ∈ t2.keys := by
  rw [mem_keys_iff_any, mem_keys_iff_any, mem_keys_iff_any, any_join (lasting_var (· = y))]

theorem hasWitnesses_iff : t.hasWitnesses = true ↔ t.Any fun _ w => w ≠ ∅ := by
  simp only [hasWitnesses, List.any_eq_true, Prod.exists,
    Std.ExtTreeMap.mem_toList_iff_getElem?_eq_some, Bool.not_eq_true', decide_eq_false_iff_not]
  rfl

@[simp] theorem hasWitnesses_singleton {x : ν} {w : Witnesses ω} :
    (singleton x w).hasWitnesses = true ↔ w ≠ ∅ := by
  have hcompare : ∀ y, (compare x y = .eq) = (x = y) := fun _ => propext compare_eq_iff_eq
  rw [hasWitnesses_iff]
  simp [Any, singleton, Std.ExtTreeMap.getElem?_insert, hcompare]

theorem hasWitnesses_update (t : Vars ν ω) (x : ν) (w : Witnesses ω) :
    (t.update x w).hasWitnesses = true ↔ t.hasWitnesses = true ∨ w ≠ ∅ := by
  rw [hasWitnesses_iff, hasWitnesses_iff, any_update lasting_witnesses]

theorem hasWitnesses_join (t1 t2 : Vars ν ω) :
    (t1.join t2).hasWitnesses = true ↔ t1.hasWitnesses = true ∨ t2.hasWitnesses = true := by
  rw [hasWitnesses_iff, hasWitnesses_iff, hasWitnesses_iff, any_join lasting_witnesses]

end Vars

namespace Transform

variable (ρ : ν → Level)

/-- Not `Bot`. -/
def live (tr : Transform ν ω) : Prop := ∀ x ∈ tr.key, ρ x ≠ .bot

/-- `Top`. -/
def tops (tr : Transform ν ω) : Prop :=
  tr.live ρ ∧ (tr.getTop.isSome = true ∨ ∃ x ∈ tr.key, ρ x = .top)

theorem mem_key_addVar (tr : Transform ν ω) (x y : ν) (w : Witnesses ω) :
    y ∈ (tr.addVar x w).key ↔ y = x ∨ y ∈ tr.key := by
  cases tr <;> exact Vars.mem_keys_update _ x y w

theorem mem_key_flatten (tr tr' : Transform ν ω) (y : ν) :
    y ∈ (tr.flatten tr').key ↔ y ∈ tr.key ∨ y ∈ tr'.key := by
  cases tr <;> cases tr' <;> simp only [flatten, key, getVars, Vars.mem_keys_join]
  tauto

theorem key_addTop (tr : Transform ν ω) (w : Witnesses ω) : (tr.addTop w).key = tr.key := by
  cases tr <;> rfl

@[simp] theorem getTop_addVar (tr : Transform ν ω) (x : ν) (w : Witnesses ω) :
    (tr.addVar x w).getTop = tr.getTop := by
  cases tr <;> rfl

theorem getTop_flatten (tr tr' : Transform ν ω) : (tr.flatten tr').getTop.isSome = true ↔
      tr.getTop.isSome = true ∨ tr'.getTop.isSome = true := by
  cases tr <;> cases tr' <;> simp [flatten, getTop]

@[simp] theorem getTop_addTop (tr : Transform ν ω) (w : Witnesses ω) :
    (tr.addTop w).getTop.isSome = true := by
  cases tr <;> rfl

theorem hasWitnesses_addVar (tr : Transform ν ω) (x : ν) (w : Witnesses ω) :
    (tr.addVar x w).hasWitnesses = true ↔ tr.hasWitnesses = true ∨ w ≠ ∅ := by
  cases tr <;> simp only [addVar, hasWitnesses, Bool.or_eq_true, Vars.hasWitnesses_update]
  tauto

theorem hasWitnesses_flatten (tr tr' : Transform ν ω) : (tr.flatten tr').hasWitnesses = true ↔
      tr.hasWitnesses = true ∨ tr'.hasWitnesses = true := by
  cases tr <;> cases tr' <;>
    simp only [flatten, hasWitnesses, Bool.or_eq_true, Vars.hasWitnesses_join, Bool.not_eq_true',
      decide_eq_false_iff_not, Finset.union_eq_empty] <;> tauto

theorem hasWitnesses_addTop (tr : Transform ν ω) (w : Witnesses ω) :
    (tr.addTop w).hasWitnesses = true ↔ tr.hasWitnesses = true ∨ w ≠ ∅ := by
  cases tr <;>
    simp only [addTop, hasWitnesses, Bool.or_eq_true, Bool.not_eq_true', decide_eq_false_iff_not,
      Finset.union_eq_empty]
  tauto

section

variable {ρ}

theorem live_addVar (tr : Transform ν ω) (x : ν) (w : Witnesses ω) :
    (tr.addVar x w).live ρ ↔ ρ x ≠ .bot ∧ tr.live ρ := by
  simp only [live, mem_key_addVar, forall_eq_or_imp]

theorem tops_addVar (tr : Transform ν ω) (x : ν) (w : Witnesses ω) :
    (tr.addVar x w).tops ρ ↔ ρ x ≠ .bot ∧ tr.live ρ ∧ (ρ x = .top ∨ tr.tops ρ) := by
  simp only [tops, live_addVar, getTop_addVar, mem_key_addVar, exists_eq_or_imp]
  tauto

theorem live_flatten (tr tr' : Transform ν ω) :
    (tr.flatten tr').live ρ ↔ tr.live ρ ∧ tr'.live ρ := by
  simp only [live, mem_key_flatten, or_imp, forall_and]

theorem tops_flatten (tr tr' : Transform ν ω) :
    (tr.flatten tr').tops ρ ↔ tr.live ρ ∧ tr'.live ρ ∧ (tr.tops ρ ∨ tr'.tops ρ) := by
  simp only [tops, live_flatten, getTop_flatten, mem_key_flatten, or_and_right]
  grind

theorem live_addTop (tr : Transform ν ω) (w : Witnesses ω) : (tr.addTop w).live ρ ↔ tr.live ρ := by
  simp only [live, key_addTop]

theorem tops_addTop (tr : Transform ν ω) (w : Witnesses ω) : (tr.addTop w).tops ρ ↔ tr.live ρ := by
  simp [tops, live_addTop]

end

@[simp] theorem key_varWithTop (x : ν) (w w' : Witnesses ω) :
    (Transform.varWithTop x w w').key = [x] := by
  rfl

/-- `new` has what `old` has. -/
structure Covers (new old : Transform ν ω) : Prop where
  top : old.getTop.isSome = true → new.getTop.isSome = true
  witnesses : old.hasWitnesses = true → new.hasWitnesses = true

/-- Properties of a member of a join that do not get lost when members with the same
variables are flattened, or one covers the other. -/
structure Lasting (P : Transform ν ω → Prop) : Prop where
  flatten : ∀ {a b : Transform ν ω}, a.key = b.key → (P (a.flatten b) ↔ P a ∨ P b)
  cover : ∀ {old new : Transform ν ω}, old.key = new.key → new.Covers old → P old → P new

theorem lasting_live : Lasting (ω := ω) (live ρ) where
  flatten h := by
    rw [live_flatten, live, h]
    tauto
  cover h _ hold := by
    rw [live, ← h]
    exact hold

theorem lasting_tops : Lasting (ω := ω) (tops ρ) where
  flatten h := by
    rw [tops_flatten, tops, tops, live, live]
    grind
  cover h hcover hold := by
    rw [tops, live, ← h]
    exact ⟨hold.1, hold.2.imp hcover.top id⟩

theorem lasting_hasWitnesses : Lasting (fun tr : Transform ν ω => tr.hasWitnesses = true) where
  flatten _ := hasWitnesses_flatten _ _
  cover _ hcover := hcover.witnesses

theorem lasting_true : Lasting fun _ : Transform ν ω => True where
  flatten _ := by simp
  cover _ _ := id

end Transform

/-! ## §3 Sets of transforms -/

/-- The bindings that the maps of transforms have: the key is the set of variables, and it is
not empty. -/
def Transforms.WellKeyed (t : Transforms ν ω) : Prop :=
  ∀ (key : List ν) (tr : Transform ν ω), t[key]? = some tr → key = tr.key ∧ key ≠ []

/-- No `Top` and no witnesses are lost when `new` is added. -/
def Transforms.AddKeeps (t : Transforms ν ω) (new : Transform ν ω) : Prop :=
  ∀ old ∈ t.elements, old.key = new.key → new.Covers old

/-- The same, for a list of transforms that are added one after the other. -/
def Keeps (l : List (Transform ν ω)) : Prop :=
  l.Pairwise fun old new => old.key = new.key → new.Covers old

namespace Transforms

open Transform (Lasting Covers)

variable {t : Transforms ν ω} {tr tr' : Transform ν ω}

theorem mem_elements : tr ∈ t.elements ↔ ∃ key : List ν, t[key]? = some tr := by
  simp only [elements, List.mem_map, Prod.exists, Std.ExtTreeMap.mem_toList_iff_getElem?_eq_some]
  constructor
  · rintro ⟨key, tr', h, rfl⟩; exact ⟨key, h⟩
  · rintro ⟨key, h⟩; exact ⟨key, tr, h, rfl⟩

theorem getElem?_insert (t : Transforms ν ω) (key key' : List ν) (tr : Transform ν ω) :
    (t.insert key tr)[key']? = if key = key' then some tr else t[key']? := by
  have hcompare : (compare key key' = .eq) = (key = key') :=
    propext Std.LawfulEqCmp.compare_eq_iff_eq
  rw [Std.ExtTreeMap.getElem?_insert]
  simp

theorem wellKeyed_empty : (∅ : Transforms ν ω).WellKeyed := by
  intro key tr h
  simp at h

theorem WellKeyed.insert (h : t.WellKeyed)
    (hne : tr.key ≠ []) : WellKeyed (t.insert tr.key tr) := by
  intro key tr' h'
  rw [getElem?_insert] at h'
  split at h'
  · cases h'
    rename_i heq
    exact ⟨heq.symm, heq ▸ hne⟩
  · exact h key tr' h'

theorem exists_insert {P : Transform ν ω → Prop} (hP : Lasting P)
    (h : t.WellKeyed) (hkeeps : t.AddKeeps tr) :
    (∃ tr' ∈ elements (t.insert tr.key tr), P tr') ↔ P tr ∨ ∃ tr' ∈ t.elements, P tr' := by
  constructor
  · rintro ⟨tr', hmem, hPtr⟩
    obtain ⟨key, hkey⟩ := mem_elements.1 hmem
    rw [getElem?_insert] at hkey
    split at hkey
    · cases hkey; exact .inl hPtr
    · exact .inr ⟨tr', mem_elements.2 ⟨key, hkey⟩, hPtr⟩
  rintro (hPtr | ⟨tr', hmem, hPtr⟩)
  · exact ⟨tr, mem_elements.2 ⟨tr.key, by rw [getElem?_insert, if_pos rfl]⟩, hPtr⟩
  obtain ⟨key, hkey⟩ := mem_elements.1 hmem
  by_cases heq : tr'.key = tr.key
  · exact ⟨tr, mem_elements.2 ⟨tr.key, by rw [getElem?_insert, if_pos rfl]⟩,
      hP.cover heq (hkeeps tr' hmem heq) hPtr⟩
  refine ⟨tr', mem_elements.2 ⟨key, ?_⟩, hPtr⟩
  rw [getElem?_insert, if_neg]
  · exact hkey
  · rw [(h key tr' hkey).1]; exact Ne.symm heq

theorem mem_elements_insert {key : List ν}
    (h : tr' ∈ elements (t.insert key tr)) : tr' = tr ∨ tr' ∈ t.elements := by
  obtain ⟨key', hkey⟩ := mem_elements.1 h
  rw [getElem?_insert] at hkey
  split at hkey
  · exact .inl (Option.some.inj hkey).symm
  · exact .inr (mem_elements.2 ⟨key', hkey⟩)

/-- One round of `union`. -/
def merge (acc : Transforms ν ω) (key : List ν) (tr2 : Transform ν ω) : Transforms ν ω :=
  match acc[key]? with
  | none => acc.insert key tr2
  | some tr1 => acc.insert key (tr1.flatten tr2)

theorem key_flatten (h : tr.key = tr'.key) : (tr.flatten tr').key = tr.key :=
  Vars.keys_ext fun x => (Transform.mem_key_flatten tr tr' x).trans (by rw [← h, or_self]; rfl)

variable {acc : Transforms ν ω}

theorem merge_spec (hacc : acc.WellKeyed) (hne : tr.key ≠ []) :
    (merge acc tr.key tr).WellKeyed ∧ ∀ {P : Transform ν ω → Prop}, Transform.Lasting P →
      ((∃ tr' ∈ (merge acc tr.key tr).elements, P tr') ↔ (∃ tr' ∈ acc.elements, P tr') ∨ P tr) := by
  rw [merge]
  cases hfind : acc[tr.key]? with
  | none =>
    have hkeeps : acc.AddKeeps tr := by
      intro old hold heq
      obtain ⟨key, hkey⟩ := mem_elements.1 hold
      rw [(hacc key old hkey).1, heq, hfind] at hkey
      cases hkey
    exact ⟨hacc.insert hne, fun hP => (exists_insert hP hacc hkeeps).trans or_comm⟩
  | some tr1 =>
    have hkey1 : tr1.key = tr.key := (hacc tr.key tr1 hfind).1.symm
    have hkey : (tr1.flatten tr).key = tr.key := (key_flatten hkey1).trans hkey1
    have hkeeps : acc.AddKeeps (tr1.flatten tr) := by
      intro old hold heq
      obtain ⟨key, hkey'⟩ := mem_elements.1 hold
      rw [(hacc key old hkey').1, heq, hkey, hfind] at hkey'
      cases hkey'
      exact ⟨fun h => (Transform.getTop_flatten _ _).2 (.inl h),
        fun h => (Transform.hasWitnesses_flatten _ _).2 (.inl h)⟩
    have hmem1 : tr1 ∈ acc.elements := mem_elements.2 ⟨tr.key, hfind⟩
    rw [← hkey]
    refine ⟨hacc.insert (hkey ▸ hne), fun hP => (exists_insert hP hacc hkeeps).trans ?_⟩
    rw [hP.flatten hkey1]
    constructor
    · rintro ((h | h) | h)
      · exact .inl ⟨tr1, hmem1, h⟩
      · exact .inr h
      · exact .inl h
    rintro (h | h)
    · exact .inr h
    · exact .inl (.inr h)

theorem foldl_merge {l : List (List ν × Transform ν ω)}
    (hl : ∀ p ∈ l, p.1 = p.2.key ∧ p.1 ≠ []) (hacc : acc.WellKeyed) :
    (l.foldl (fun acc p => merge acc p.1 p.2) acc).WellKeyed ∧
      ∀ {P : Transform ν ω → Prop}, Transform.Lasting P →
        ((∃ tr ∈ (l.foldl (fun acc p => merge acc p.1 p.2) acc).elements, P tr) ↔
          (∃ tr ∈ acc.elements, P tr) ∨ ∃ p ∈ l, P p.2) := by
  induction l generalizing acc with
  | nil => simp [hacc]
  | cons p l ih =>
    obtain ⟨key, tr⟩ := p
    obtain ⟨rfl, hne⟩ : key = tr.key ∧ key ≠ [] := hl (key, tr) (by simp)
    obtain ⟨hkeyed, hmerge⟩ := merge_spec hacc hne
    obtain ⟨hkeyed', hrest⟩ := ih (fun p hp => hl p (by simp [hp])) hkeyed
    refine ⟨hkeyed', fun hP => ?_⟩
    rw [foldl_cons, hrest hP, hmerge hP, or_assoc]
    simp

theorem union_spec {t1 t2 : Transforms ν ω} (h1 : t1.WellKeyed) (h2 : t2.WellKeyed) :
    (union t1 t2).WellKeyed ∧ ∀ {P : Transform ν ω → Prop}, Transform.Lasting P →
      ((∃ tr ∈ (union t1 t2).elements, P tr) ↔
        (∃ tr ∈ t1.elements, P tr) ∨ ∃ tr ∈ t2.elements, P tr) := by
  have heq : union t1 t2 = t2.toList.foldl (fun acc p => merge acc p.1 p.2) t1 := by
    rw [union, Std.ExtTreeMap.foldl_eq_foldl_toList]
    rfl
  have hl : ∀ p ∈ t2.toList, p.1 = p.2.key ∧ p.1 ≠ [] := fun p hp =>
    h2 p.1 p.2 (Std.ExtTreeMap.mem_toList_iff_getElem?_eq_some.1 hp)
  obtain ⟨hkeyed, hspec⟩ := foldl_merge hl h1
  rw [heq]
  refine ⟨hkeyed, fun hP => (hspec hP).trans (or_congr Iff.rfl ?_)⟩
  simp only [elements, List.mem_map]
  constructor
  · rintro ⟨p, hp, h⟩; exact ⟨p.2, ⟨p, hp, rfl⟩, h⟩
  · rintro ⟨_, ⟨p, hp, rfl⟩, h⟩; exact ⟨p, hp, h⟩

end Transforms

/-! ## §4 Results -/

/-- The flag is `Keep_all`, or `Widen n` with `n` positive. -/
def Config.Valid (config : Config ω) : Prop :=
  config.join = .keepAll ∨ ∃ n, 0 < n ∧ config.join = .widen n

/-- No assertion and no fatal error, and `Widen` only where the flag allows it; a result
satisfies `Q`. -/
def Yields {α : Type} (config : Config ω) (r : Except (Exn ω) α) (Q : α → Prop) : Prop :=
  (∃ a, r = .ok a ∧ Q a) ∨ (∃ w, r = .error (.widen w)) ∧ config.join ≠ .keepAll

namespace Yields

variable {α β : Type} {config : Config ω} {Q : α → Prop} {R : β → Prop} {a : α}

theorem pure (h : Q a) : Yields config (.ok a) Q := .inl ⟨a, rfl, h⟩

variable {r : Except (Exn ω) α}

theorem bind {f : α → Except (Exn ω) β} (h : Yields config r Q)
    (hf : ∀ a, Q a → Yields config (f a) R) : Yields config (r >>= f) R := by
  rcases h with ⟨a, rfl, ha⟩ | ⟨⟨w, rfl⟩, hpolicy⟩
  · exact hf a ha
  · exact .inr ⟨⟨w, rfl⟩, hpolicy⟩

theorem mono {Q' : α → Prop} (h : Yields config r Q)
    (hQ : ∀ a, Q a → Q' a) : Yields config r Q' := by
  rcases h with ⟨a, ha, hQa⟩ | h
  · exact .inl ⟨a, ha, hQ a hQa⟩
  · exact .inr h

/-- An invariant of a fold, indexed by the elements that are done. -/
theorem foldlM {f : α → β → Except (Exn ω) α} {l : List β} {I : List β → α → Prop}
    (ha : I [] a) (hstep : ∀ done x rest a, l = done ++ x :: rest → I done a →
      Yields config (f a x) (I (done ++ [x]))) : Yields config (l.foldlM f a) (I l) := by
  have hrun : ∀ rest done a, l = done ++ rest → I done a →
      Yields config (rest.foldlM f a) (I l) := by
    intro rest
    induction rest with
    | nil =>
      intro done a hl ha
      rw [List.append_nil] at hl
      exact .pure (hl ▸ ha)
    | cons x rest ih =>
      intro done a hl ha
      refine (hstep done x rest a hl ha).bind fun b hb => ih (done ++ [x]) b ?_ hb
      rw [hl]
      simp
  exact hrun l [] a rfl ha

end Yields

variable {config : Config ω}

namespace Transforms

section

variable (hconfig : config.Valid)
include hconfig

theorem maybeWiden_yields (t : Transforms ν ω) :
    Yields config (maybeWiden config t) (· = t) := by
  rcases hconfig with h | ⟨n, -, h⟩
  · rw [maybeWiden, h]; exact .pure rfl
  rw [maybeWiden, h]
  dsimp only
  split
  · refine .inr ⟨?_, by simp [h]⟩
    split
    · exact ⟨_, rfl⟩
    · exact ⟨_, rfl⟩
  · exact .pure rfl

/-- Adding to the empty set never widens. -/
theorem add_empty (tr : Transform ν ω) :
    add config tr ∅ = .ok ((∅ : Transforms ν ω).insert tr.key tr) := by
  have hsize : ((∅ : Transforms ν ω).insert tr.key tr).size ≤ 1 :=
    Std.ExtTreeMap.size_insert_le.trans (by simp)
  rcases hconfig with h | ⟨n, hn, h⟩
  · rw [add, maybeWiden, h]; rfl
  rw [add, maybeWiden, h]
  dsimp only
  rw [if_neg (by omega)]
  rfl

theorem join_yields {t1 t2 : Transforms ν ω} (h1 : t1.WellKeyed)
    (h2 : t2.WellKeyed) :
    Yields config (join config t1 t2) fun t =>
      t.WellKeyed ∧ ∀ {P : Transform ν ω → Prop}, Transform.Lasting P →
        ((∃ tr ∈ t.elements, P tr) ↔ (∃ tr ∈ t1.elements, P tr) ∨ ∃ tr ∈ t2.elements, P tr) := by
  refine (maybeWiden_yields hconfig _).mono ?_
  rintro t rfl
  exact union_spec h1 h2

/-- Adding transforms one after the other, so that none is lost. -/
theorem addAll_yields {l : List (Transform ν ω)} (hl : Keeps l)
    (hne : ∀ tr ∈ l, tr.key ≠ []) :
    Yields config (l.foldlM (fun acc tr => add config tr acc) ∅) fun t =>
      t.WellKeyed ∧ (∀ tr ∈ t.elements, tr ∈ l) ∧
        ∀ {P : Transform ν ω → Prop}, Transform.Lasting P →
          ((∃ tr ∈ t.elements, P tr) ↔ ∃ tr ∈ l, P tr) := by
  have hempty : ∀ tr : Transform ν ω, tr ∉ elements ∅ := fun tr h => by
    obtain ⟨key, hkey⟩ := mem_elements.1 h
    simp at hkey
  refine Yields.foldlM (I := fun done (t : Transforms ν ω) => t.WellKeyed ∧
    (∀ tr ∈ t.elements, tr ∈ done) ∧
    ∀ {P : Transform ν ω → Prop}, Transform.Lasting P →
      ((∃ tr ∈ t.elements, P tr) ↔ ∃ tr ∈ done, P tr)) ?_ ?_
  · refine ⟨wellKeyed_empty, fun tr htr => absurd htr (hempty tr), fun _ => ?_⟩; simp [hempty]
  rintro done tr rest t rfl ⟨hkeyed, hmem, hspec⟩
  have hkeeps : t.AddKeeps tr := fun old hold heq =>
    (List.pairwise_append.1 hl).2.2 old (hmem old hold) tr (by simp) heq
  refine (maybeWiden_yields hconfig _).mono ?_
  rintro t' rfl
  refine ⟨hkeyed.insert (hne tr (by simp)), fun tr' htr' => ?_, fun hP => ?_⟩
  · rcases mem_elements_insert htr' with rfl | h
    · simp
    · simp [hmem tr' h]
  rw [exists_insert hP hkeyed hkeeps, hspec hP]
  simp only [List.mem_append, List.mem_singleton, or_and_right, exists_or, exists_eq_left]
  exact or_comm

theorem map_yields {t : Transforms ν ω} {f : Transform ν ω → Transform ν ω}
    (hkeeps : Keeps (t.elements.map f)) (hne : ∀ tr ∈ t.elements, (f tr).key ≠ []) :
    Yields config (map config f t) fun t' =>
      t'.WellKeyed ∧ (∀ tr ∈ t'.elements, tr ∈ t.elements.map f) ∧
        ∀ {P : Transform ν ω → Prop}, Transform.Lasting P →
          ((∃ tr ∈ t'.elements, P tr) ↔ ∃ tr ∈ t.elements, P (f tr)) := by
  have hadd := addAll_yields hconfig hkeeps (by simpa using hne)
  rw [List.foldlM_map] at hadd
  refine hadd.mono ?_
  rintro t' ⟨hkeyed, hmem, hspec⟩
  refine ⟨hkeyed, hmem, fun hP => (hspec hP).trans ?_⟩
  simp

end

end Transforms

end Oxcaml.Backend.ZeroAlloc
