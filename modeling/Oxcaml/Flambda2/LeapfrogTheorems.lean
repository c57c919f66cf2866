/-
Oxcaml.Flambda2.LeapfrogTheorems — a leapfrog join enumerates the intersection.

`Contract` is what the signature `Iterator` promises: a started iterator has a
sorted list of remaining keys, of which `current` is the first, `advance` drops
it, and `seek` drops the keys below its argument. `Initialises` says that `init`
puts an iterator on the first key of its map.

While `search` runs, the keys are in order from the index of the lowest one
around the array (`Cyclic`), so the iterator before the index has the highest
key, no key below it is common, and when the lowest key is the highest all are
equal. Every move shortens a list of remaining keys, which bounds the search
(§1). `Holds` is the invariant of joins between two calls (§2): all iterators
are on one key, and the common remaining keys are the given ones. §3 shows that
Patricia trees keep the contract.
-/
import Mathlib.Algebra.BigOperators.Fin
import Oxcaml.Flambda2.Leapfrog
import Oxcaml.Lib.CommonElements
import Mathlib.Algebra.Group.Fin.Basic
import Mathlib.Algebra.Order.BigOperators.Group.Finset

set_option linter.all false

namespace Oxcaml.Flambda2.Leapfrog

open List (head?_eq_none_iff ofFn)
open Function (update update_of_ne update_self)
open Set (range)
open PatriciaTree (Key Sorted T)
open Fin (last)

open Oxcaml.Lib

variable {E S K M : Type} [LinearOrder K] {n : Nat}

/-- What an implementation of `Iterator` promises. `Valid` states have been initialised, and
`source` is the map of an iterator, or its channel. -/
structure Contract (ops : IteratorOps E S K) (Valid : S → Prop) (remaining : S → List K)
    (source : S → M) : Prop where
  increasing : ∀ s, Valid s → Increasing (remaining s)
  current : ∀ s, Valid s → ops.current s = (remaining s).head?
  advance : ∀ s, Valid s → Valid (ops.advance s) ∧
    remaining (ops.advance s) = (remaining s).tail ∧ source (ops.advance s) = source s
  seek : ∀ s k, Valid s → Valid (ops.seek s k) ∧
    remaining (ops.seek s k) = (remaining s).dropWhile (· < k) ∧ source (ops.seek s k) = source s
  equalKey : ∀ s k k', ops.equalKey s k k' = true ↔ k = k'
  compareKey : ∀ s k k', (ops.compareKey s k k' < 0 ↔ k < k') ∧ (ops.compareKey s k k' = 0 ↔ k = k')

/-- What `init` promises when the maps in `sources` have the given keys. -/
def Initialises (ops : IteratorOps E S K) (env : E) (Valid : S → Prop) (remaining : S → List K)
    (source : S → M) (sources : Set M) (keys : M → List K) : Prop :=
  ∀ s, source s ∈ sources → Valid (ops.init env s) ∧ remaining (ops.init env s) = keys (source s) ∧
    source (ops.init env s) = source s

/-- What `Array.sort` promises for a comparison that is a total order. -/
def Sorts (sort : (S → S → Int) → (Fin n → S) → Fin n → S) : Prop :=
  ∀ cmp, TotalOrder cmp → ∀ f, (ofFn (sort cmp f)).Perm (ofFn f) ∧
    (ofFn (sort cmp f)).Pairwise fun s s' => cmp s s' ≤ 0

section Join

variable {ops : IteratorOps E S K} {Valid : S → Prop} {remaining : S → List K} {source : S → M}
  (h : Contract ops Valid remaining source)

/-! ## §1 Searching -/

/-- The keys, from the index of the lowest one around the array, are in order. -/
structure Cyclic (Valid : S → Prop) (remaining : S → List K) (iterators : Fin (n + 1) → S)
    (lowest : Fin (n + 1)) (highestKey : K) (key : Fin (n + 1) → K) : Prop where
  valid : ∀ i, Valid (iterators i)
  head : ∀ i, (remaining (iterators i)).head? = some (key i)
  ordered : ∀ a b, a ≤ b → key (lowest + a) ≤ key (lowest + b)
  highest : key (lowest + last n) = highestKey

/-- The iterators have moved, but past no common key. -/
structure Moved (Valid : S → Prop) (remaining : S → List K) (source : S → M)
    (iterators iterators' : Fin (n + 1) → S) : Prop where
  valid : ∀ i, Valid (iterators' i)
  source : ∀ i, source (iterators' i) = source (iterators i)
  common : ∀ l, IsCommon (remaining ∘ iterators) l → IsCommon (remaining ∘ iterators') l

/-- What a search with the result `r` leaves. -/
structure Searched (Valid : S → Prop) (remaining : S → List K) (source : S → M)
    (iterators : Fin (n + 1) → S) (r : Option K) (iterators' : Fin (n + 1) → S) : Prop
    extends Moved Valid remaining source iterators iterators' where
  none : r = none → ∃ i, remaining (iterators' i) = []
  some : ∀ k, r = some k → ∀ i, (remaining (iterators' i)).head? = some k

variable {iterators : Fin (n + 1) → S}

theorem Searched.trans {iterators' iterators'' : Fin (n + 1) → S} {r : Option K}
    (hm : Moved Valid remaining source iterators iterators')
    (hs : Searched Valid remaining source iterators' r iterators'') :
    Searched Valid remaining source iterators r iterators'' where
  valid := hs.valid
  source i := (hs.source i).trans (hm.source i)
  common l hl := hs.common l (hm.common l hl)
  none := hs.none
  some := hs.some

omit [LinearOrder K] in
theorem update_comp {β : Type} (f : S → β) (iterators : Fin (n + 1) → S) (i : Fin (n + 1))
    (s : S) : f ∘ update iterators i s = update (f ∘ iterators) i (f s) :=
  Function.comp_update f iterators i s

section Cyclic

variable {iterators : Fin (n + 1) → S} {lowest : Fin (n + 1)} {highestKey : K}
  {key : Fin (n + 1) → K}

section

variable (hc : Cyclic Valid remaining iterators lowest highestKey key)
include hc

theorem Cyclic.le_highest
    (i : Fin (n + 1)) : key i ≤ highestKey := by
  have hle := hc.ordered (i - lowest) (last n) (Fin.le_last _)
  rwa [hc.highest, add_sub_cancel] at hle

theorem Cyclic.lowest_le
    (i : Fin (n + 1)) : key lowest ≤ key i := by
  have hle := hc.ordered 0 (i - lowest) (Fin.zero_le _)
  rwa [add_zero, add_sub_cancel] at hle

/-- The lowest iterator has moved to a key `k` that is not below the highest one. -/
theorem Cyclic.move {s : S} {k : K}
    (hs : Valid s) (hk : (remaining s).head? = some k) (hle : highestKey ≤ k) :
    Cyclic Valid remaining (update iterators lowest s) (lowest + 1) k
      (update key lowest k) := by
  have hlast : lowest + 1 + last n = lowest := by
    rw [add_assoc, add_comm 1, Fin.last_add_one, add_zero]
  constructor
  · intro i
    by_cases hi : i = lowest
    · subst hi; rwa [update_self]
    · rw [update_of_ne hi]; exact hc.valid i
  · intro i
    by_cases hi : i = lowest
    · subst hi; rwa [update_self, update_self]
    · rw [update_of_ne hi, update_of_ne hi]; exact hc.head i
  · intro a b hab
    have hmoved : ∀ c : Fin (n + 1), c < last n → lowest + 1 + c = lowest + (c + 1) ∧
        lowest + 1 + c ≠ lowest := by
      intro c hc'
      refine ⟨by rw [add_assoc, add_comm 1], fun heq => hc'.ne ?_⟩
      exact add_left_cancel (heq.trans hlast.symm)
    by_cases hb : b = last n
    · subst hb
      rw [hlast, update_self]
      by_cases ha : lowest + 1 + a = lowest
      · rw [ha, update_self]
      · rw [update_of_ne ha]; exact (hc.le_highest _).trans hle
    have hb' := (Fin.le_last b).lt_of_ne hb
    have ha' := hab.trans_lt hb'
    rw [update_of_ne (hmoved a ha').2, update_of_ne (hmoved b hb').2,
      (hmoved a ha').1, (hmoved b hb').1]
    refine hc.ordered _ _ ?_
    rw [Fin.le_def, Fin.val_add_one_of_lt ha', Fin.val_add_one_of_lt hb']
    exact Nat.succ_le_succ hab
  · rw [hlast, update_self]

end

include h

section

variable (hc : Cyclic Valid remaining iterators lowest highestKey key)
include hc

/-- Moving the lowest iterator to the highest key passes no common key. -/
theorem Cyclic.moved :
    Moved Valid remaining source iterators
      (update iterators lowest (ops.seek (iterators lowest) highestKey)) := by
  obtain ⟨hvalid, hremaining, hsource⟩ := h.seek _ highestKey (hc.valid lowest)
  refine ⟨fun i => ?_, fun i => ?_, fun l hl => ?_⟩
  · by_cases hi : i = lowest
    · subst hi; rwa [update_self]
    · rw [update_of_ne hi]; exact hc.valid i
  · by_cases hi : i = lowest
    · subst hi; rw [update_self, hsource]
    · rw [update_of_ne hi]
  rw [update_comp, hremaining]
  have hincreasing : ∀ i, Increasing (remaining (iterators i)) := fun i =>
    h.increasing _ (hc.valid i)
  refine hl.skip hincreasing (j := lowest + last n) fun x hx => ?_
  have hhead := hc.head (lowest + last n)
  rw [hc.highest] at hhead
  exact (hincreasing _).head_le hhead hx

/-- Moving the lowest iterator to a higher key shortens what it has left. -/
theorem Cyclic.shorter
    (hlt : key lowest < highestKey) :
    ∑ i, (remaining (update iterators lowest
        (ops.seek (iterators lowest) highestKey) i)).length <
      ∑ i, (remaining (iterators i)).length := by
  obtain ⟨-, hremaining, -⟩ := h.seek _ highestKey (hc.valid lowest)
  have hshort : (remaining (ops.seek (iterators lowest) highestKey)).length <
      (remaining (iterators lowest)).length := by
    have hhead := hc.head lowest
    rw [hremaining]
    cases hl : remaining (iterators lowest) with
    | nil => simp [hl] at hhead
    | cons k l =>
      rw [hl, List.head?_cons, Option.some_inj] at hhead
      rw [List.dropWhile_cons_of_pos (by simpa [hhead] using hlt)]
      exact Nat.lt_succ_of_le (List.dropWhile_sublist _).length_le
  refine Finset.sum_lt_sum (fun i _ => ?_) ⟨lowest, Finset.mem_univ _, ?_⟩
  · by_cases hi : i = lowest
    · subst hi
      rw [update_self]
      exact hshort.le
    · rw [update_of_ne hi]
  · rwa [update_self]

/-- A search ends. The induction is on the number of keys that the iterators have left. -/
theorem search_spec :
    ∃ r iterators', search ops iterators lowest highestKey = some (r, iterators') ∧
      Searched Valid remaining source iterators r iterators' := by
  induction hleft : ∑ i, (remaining (iterators i)).length using Nat.strongRecOn
    generalizing iterators lowest highestKey key with
  | ind left ih =>
    subst hleft
    have hmoved := hc.moved h
    rw [search, h.current _ (hc.valid lowest), hc.head lowest]
    dsimp only
    by_cases heq : key lowest = highestKey
    · rw [if_pos ((h.equalKey _ _ _).2 heq)]
      refine ⟨_, _, rfl, ⟨hc.valid, fun _ => rfl, fun _ hl => hl⟩, by simp, fun k hk i => ?_⟩
      cases hk
      rw [hc.head i, le_antisymm (heq ▸ hc.le_highest i) (hc.lowest_le i)]
    rw [if_neg fun hequal => heq ((h.equalKey _ _ _).1 hequal)]
    obtain ⟨hvalid, hremaining, -⟩ := h.seek _ highestKey (hc.valid lowest)
    have hhead := h.current _ hvalid
    cases hcurrent : ops.current (ops.seek (iterators lowest) highestKey) with
    | none =>
      rw [hcurrent] at hhead
      refine ⟨_, _, rfl, hmoved, fun _ => ⟨lowest, ?_⟩, by simp⟩
      rw [update_self]
      exact head?_eq_none_iff.1 hhead.symm
    | some k =>
      rw [hcurrent] at hhead
      have hmem := List.mem_of_mem_head? hhead.symm
      rw [hremaining, (h.increasing _ (hc.valid lowest)).mem_dropWhile] at hmem
      have hlt := (hc.le_highest lowest).lt_of_ne heq
      obtain ⟨r, iterators', hsearch, hs⟩ :=
        ih _ (hc.shorter h hlt) (hc.move hvalid hhead.symm hmem.2) rfl
      exact ⟨r, iterators', hsearch, .trans hmoved hs⟩

end

end Cyclic

/-! ## §2 Joins -/

/-- A join between two calls, over the maps in `sources`: `left` are their common keys that it
has not passed. -/
structure Holds (Valid : S → Prop) (remaining : S → List K) (source : S → M) (sources : Set M)
    (left : List K) (j : Join S n) : Prop where
  sources : range (source ∘ j.iterators) = sources
  ended : j.atEnd = true → left = []
  valid : j.atEnd = false → ∀ i, Valid (j.iterators i)
  common : j.atEnd = false → IsCommon (remaining ∘ j.iterators) left
  head : j.atEnd = false → ∀ i, (remaining (j.iterators i)).head? = left.head?

theorem Cyclic.const {k : K} (hvalid : ∀ i, Valid (iterators i))
    (hhead : ∀ i, (remaining (iterators i)).head? = some k) (lowest : Fin (n + 1)) :
    Cyclic Valid remaining iterators lowest k fun _ => k :=
  ⟨hvalid, hhead, fun _ _ _ => le_rfl, rfl⟩

/-- An iterator that `init` has put on its first key. -/
structure Started (Valid : S → Prop) (remaining : S → List K) (source : S → M) (keys : M → List K)
    (s : S) : Prop where
  valid : Valid s
  fresh : remaining s = keys (source s)
  head : ∃ k, (remaining s).head? = some k

section Operations

include h

variable {sources : Set M}

variable {left : List K}

theorem repair_spec
    (hvalid : ∀ i, Valid (iterators i)) (hsources : range (source ∘ iterators) = sources)
    (hleft : IsCommon (remaining ∘ iterators) left)
    (hcyclic : ∀ k, (remaining (iterators (last n))).head? = some k →
      ∃ key, Cyclic Valid remaining iterators 0 k key) :
    ∃ j, repair ops iterators = some j ∧ Holds Valid remaining source sources left j := by
  unfold repair
  split
  · rw [h.current _ (hvalid _)]
    cases hlast : (remaining (iterators (last n))).head? with
    | none =>
      refine ⟨_, rfl, hsources, fun _ => ?_, by simp, by simp, by simp⟩
      exact hleft.eq_nil (head?_eq_none_iff.1 hlast)
    | some k =>
      obtain ⟨key, hc⟩ := hcyclic k hlast
      obtain ⟨r, iterators', hsearch, hs⟩ := search_spec h hc
      have hsources' : range (source ∘ iterators') = sources := by
        rwa [show source ∘ iterators' = source ∘ iterators from funext hs.source]
      have hleft' := hs.common left hleft
      simp only [hsearch, Option.bind_eq_bind]
      cases r with
      | none =>
        refine ⟨_, rfl, hsources', fun _ => ?_, by simp, by simp, by simp⟩
        obtain ⟨i, hi⟩ := hs.none rfl
        exact hleft'.eq_nil hi
      | some k' =>
        have hhead := hs.some k' rfl
        refine ⟨_, rfl, hsources', by simp, fun _ => hs.valid, fun _ => hleft', fun _ i => ?_⟩
        rw [hhead i, hleft'.head?_eq (fun i => h.increasing _ (hs.valid i)) hhead]
  refine ⟨_, rfl, hsources, by simp, fun _ => hvalid, fun _ => hleft, fun _ i => ?_⟩
  -- the only iterator
  have hi : ∀ i', i' = i := fun i' => by ext; omega
  have hone : IsCommon (remaining ∘ iterators) (remaining (iterators i)) :=
    ⟨h.increasing _ (hvalid i), fun x => ⟨fun hx i' => hi i' ▸ hx, fun hx => hx i⟩⟩
  rw [hleft.unique hone]

variable {j : Join S n}

/-- The last iterator has moved from the key that all are on. -/
theorem repair_last {left left' : List K}
    (hj : Holds Valid remaining source sources left j) (hend : j.atEnd = false) {s : S}
    (hs : Valid s) (hsource : source s = source (j.iterators (last n)))
    (hsub : ∀ x ∈ remaining s, x ∈ remaining (j.iterators (last n)))
    (hleft : IsCommon
      (update (remaining ∘ j.iterators) (last n) (remaining s)) left') :
    ∃ j', repair ops (update j.iterators (last n) s) = some j' ∧
      Holds Valid remaining source sources left' j' := by
  have hvalid := hj.valid hend
  refine repair_spec h (fun i => ?_) ?_ (by rwa [update_comp]) fun k hk => ?_
  · by_cases hi : i = last n
    · subst hi; rwa [update_self]
    · rw [update_of_ne hi]; exact hvalid i
  · rw [update_comp, hsource, ← Function.comp_apply (f := source), Function.update_eq_self]
    exact hj.sources
  rw [update_self] at hk
  have hmem := hsub k (List.mem_of_mem_head? hk)
  cases hhead : left.head? with
  | none => rw [← hj.head hend (last n), head?_eq_none_iff] at hhead; simp [hhead] at hmem
  | some k₀ =>
    have hheads := fun i => (hj.head hend i).trans hhead
    have hle := (h.increasing _ (hvalid _)).head_le (hheads (last n)) hmem
    have hc := (Cyclic.const hvalid hheads (last n)).move hs hk hle
    rw [Fin.last_add_one] at hc
    exact ⟨_, hc⟩

section

variable (hj : Holds Valid remaining source sources left j)
include hj

theorem current_spec : current ops j = left.head? := by
  unfold current
  cases hend : j.atEnd with
  | true => simp [hj.ended hend]
  | false => simp [h.current _ (hj.valid hend _), hj.head hend]

theorem on_current {k : K} (hk : current ops j = some k)
    (i : Fin (n + 1)) : ops.current (j.iterators i) = some k := by
  rw [current_spec h hj] at hk
  cases hend : j.atEnd with
  | true => simp [hj.ended hend] at hk
  | false => rw [h.current _ (hj.valid hend i), hj.head hend, hk]

theorem advance_spec :
    ∃ j', advance ops j = some j' ∧ Holds Valid remaining source sources left.tail j' := by
  unfold advance
  cases hend : j.atEnd with
  | true =>
    have hleft := hj.ended hend
    subst hleft
    exact ⟨j, by simp, hj⟩
  | false =>
    obtain ⟨hvalid, hremaining, hsource⟩ := h.advance _ (hj.valid hend (last n))
    have hincreasing := fun i => h.increasing _ (hj.valid hend i)
    refine repair_last h hj hend hvalid hsource (fun x hx => ?_) ?_
    · rw [hremaining] at hx; exact List.mem_of_mem_tail hx
    rw [hremaining]
    cases hhead : left.head? with
    | none =>
      rw [head?_eq_none_iff] at hhead
      subst hhead
      have hempty := head?_eq_none_iff.1 (hj.head hend (last n))
      have htail : (remaining (j.iterators (last n))).tail =
          (remaining ∘ j.iterators) (last n) := by simp [hempty]
      rw [htail, Function.update_eq_self]
      exact hj.common hend
    | some k => exact (hj.common hend).advance hincreasing _ fun i => (hj.head hend i).trans hhead

theorem seek_spec (k : K) :
    ∃ j', seek ops j k = some j' ∧
      Holds Valid remaining source sources (left.dropWhile (· < k)) j' := by
  unfold seek
  cases hend : j.atEnd with
  | true =>
    have hleft := hj.ended hend
    subst hleft
    exact ⟨j, by simp, hj⟩
  | false =>
    obtain ⟨hvalid, hremaining, hsource⟩ := h.seek _ k (hj.valid hend (last n))
    have hincreasing := fun i => h.increasing _ (hj.valid hend i)
    refine repair_last h hj hend hvalid hsource (fun x hx => ?_) ?_
    · rw [hremaining, (hincreasing _).mem_dropWhile] at hx; exact hx.1
    · rw [hremaining]; exact (hj.common hend).seek hincreasing _ k

end

variable {keys : M → List K}

theorem initIterators_spec {env : E}
    (hinit : Initialises ops env Valid remaining source sources keys) (l : List (Fin (n + 1)))
      (hsources : ∀ i, source (iterators i) ∈ sources) :
    (∀ i, source ((initIterators ops env l iterators).1 i) = source (iterators i)) ∧
    ((initIterators ops env l iterators).2 = false → ∃ i, keys (source (iterators i)) = []) ∧
    ((initIterators ops env l iterators).2 = true → ∀ i,
      i ∈ l ∨ Started Valid remaining source keys (iterators i) →
        Started Valid remaining source keys ((initIterators ops env l iterators).1 i)) := by
  induction l generalizing iterators with
  | nil =>
    refine ⟨fun _ => rfl, by simp [initIterators], fun _ i hi => ?_⟩
    simpa [initIterators] using hi
  | cons i₀ l ih =>
    obtain ⟨hvalid, hremaining, hsource⟩ := hinit _ (hsources i₀)
    have hsource' : ∀ i, source (update iterators i₀ (ops.init env (iterators i₀)) i) =
        source (iterators i) := by
      intro i
      by_cases hi : i = i₀
      · subst hi; rw [update_self, hsource]
      · rw [update_of_ne hi]
    have hcurrent := h.current _ hvalid
    rw [hremaining] at hcurrent
    simp only [initIterators]
    cases hkey : ops.current (ops.init env (iterators i₀)) with
    | none =>
      rw [hkey] at hcurrent
      exact ⟨hsource', fun _ => ⟨i₀, head?_eq_none_iff.1 hcurrent.symm⟩, by simp⟩
    | some k =>
      rw [hkey] at hcurrent
      obtain ⟨h₁, h₂, h₃⟩ := ih fun i => (hsource' i).symm ▸ hsources i
      refine ⟨fun i => (h₁ i).trans (hsource' i), fun hfalse => ?_, fun htrue i hi => ?_⟩
      · obtain ⟨i, hi⟩ := h₂ hfalse; exact ⟨i, hsource' i ▸ hi⟩
      by_cases hi₀ : i = i₀
      · subst hi₀
        refine h₃ htrue i (.inr ?_)
        rw [update_self]
        exact ⟨hvalid, hsource.symm ▸ hremaining, k, by rw [hremaining, hcurrent]⟩
      · refine h₃ htrue i ?_; simpa [hi₀] using hi

theorem compareKey_pos (s : S) (k k' : K) : 0 < ops.compareKey s k k' ↔ k' < k := by
  obtain ⟨hlt, heq⟩ := h.compareKey s k k'
  rw [← not_le, ← not_le (a := k), le_iff_lt_or_eq, le_iff_lt_or_eq, hlt, heq]

theorem compareKey_nonpos (s : S) (k k' : K) : ops.compareKey s k k' ≤ 0 ↔ k ≤ k' := by
  rw [← not_lt, compareKey_pos h, not_lt]

theorem compareCurrent_total : TotalOrder (compareCurrent ops) := by
  constructor
  · intro s s'
    unfold compareCurrent orNullCompare
    cases ops.current s <;> cases ops.current s' <;> simp [(h.compareKey _ _ _).1, compareKey_pos h]
  intro s s' s''
  unfold compareCurrent orNullCompare
  cases ops.current s <;> cases ops.current s' <;> cases ops.current s'' <;>
    simp [compareKey_nonpos h]
  exact le_trans

theorem init_spec {env : E} (hinit : Initialises ops env Valid remaining source sources keys)
    {sort : (S → S → Int) → (Fin (n + 1) → S) → Fin (n + 1) → S} (hsort : Sorts sort)
      (hsources : range (source ∘ j.iterators) = sources) {full : List K}
    (hfull : IsCommon (fun m : sources => keys m) full) :
    ∃ j', init ops sort env j = some j' ∧ Holds Valid remaining source sources full j' := by
  have hmem : ∀ i, source (j.iterators i) ∈ sources := fun i => hsources ▸ Set.mem_range_self i
  obtain ⟨hsource', hempty, hstarted⟩ := initIterators_spec h hinit (List.finRange (n + 1)) hmem
  -- the lists of the keys of an array of iterators over these maps
  have hcommon : ∀ iterators : Fin (n + 1) → S, range (source ∘ iterators) = sources →
      IsCommon (fun i => keys (source (iterators i))) full := by
    intro iterators hrange
    refine hfull.of_range ?_
    ext l
    simp [← hrange]
  unfold init
  split
  case h_1 iterators heq =>
    rw [heq] at hsource' hempty
    refine ⟨_, rfl, ?_, fun _ => ?_, by simp, by simp, by simp⟩
    · rwa [show source ∘ iterators = source ∘ j.iterators from funext hsource']
    · obtain ⟨i, hi⟩ := hempty rfl; exact (hcommon _ hsources).eq_nil hi
  case h_2 iterators heq =>
    rw [heq] at hsource' hstarted
    have hstarted' := fun i => hstarted rfl i (.inl (List.mem_finRange i))
    obtain ⟨hperm, hsorted⟩ := hsort _ (compareCurrent_total h) iterators
    have hrange : range (sort (compareCurrent ops) iterators) = range iterators := by
      ext s
      simpa only [List.mem_ofFn, Set.mem_range] using hperm.mem_iff (a := s)
    have hstarted'' : ∀ i,
        Started Valid remaining source keys (sort (compareCurrent ops) iterators i) := by
      rw [← Set.forall_mem_range (p := Started Valid remaining source keys), hrange,
        Set.forall_mem_range]
      exact hstarted'
    have hsources' : range (source ∘ sort (compareCurrent ops) iterators) = sources := by
      rw [Set.range_comp, hrange, ← Set.range_comp,
        show source ∘ iterators = source ∘ j.iterators from funext hsource', hsources]
    have hsame : remaining ∘ sort (compareCurrent ops) iterators =
        fun i => keys (source (sort (compareCurrent ops) iterators i)) :=
      funext fun i => (hstarted'' i).fresh
    refine repair_spec h (fun i => (hstarted'' i).valid) hsources'
      (hsame ▸ hcommon _ hsources') fun k hk => ?_
    choose key hkey using fun i => (hstarted'' i).head
    refine ⟨key, fun i => (hstarted'' i).valid, hkey, fun a b hab => ?_, ?_⟩
    · have hle : compareCurrent ops (sort (compareCurrent ops) iterators a)
          (sort (compareCurrent ops) iterators b) ≤ 0 := by
        rcases hab.eq_or_lt with rfl | hlt
        · exact ((compareCurrent_total h).self _).le
        · exact List.pairwise_ofFn.1 hsorted hlt
      rw [compareCurrent, h.current _ (hstarted'' a).valid, h.current _ (hstarted'' b).valid,
        hkey, hkey] at hle
      rw [zero_add, zero_add]
      exact (compareKey_nonpos h _ _ _).1 hle
    · rw [zero_add, ← Option.some_inj, ← hkey, hk]

end Operations

/-- A call on a join. -/
inductive Call (K : Type) where
  | advance
  | seek (key : K)

def Call.run (ops : IteratorOps E S K) (j : Join S n) : Call K → Option (Join S n)
  | advance => Leapfrog.advance ops j
  | seek key => Leapfrog.seek ops j key

/-- What a call leaves of the common keys. -/
def Call.leave (left : List K) : Call K → List K
  | advance => left.tail
  | seek key => left.dropWhile (· < key)

/-- The current key, and the join after `advance`. -/
def next (ops : IteratorOps E S K) (j : Join S n) : Option (K × Join S n) := do
  let key ← current ops j
  let j ← advance ops j
  some (key, j)

include h

variable {sources : Set M}

theorem run_spec (calls : List (Call K)) {j : Join S n} {left : List K}
    (hj : Holds Valid remaining source sources left j) :
    ∃ j', calls.foldlM (Call.run ops) j = some j' ∧
      Holds Valid remaining source sources (calls.foldl Call.leave left) j' := by
  induction calls generalizing j left with
  | nil => exact ⟨j, rfl, hj⟩
  | cons c calls ih =>
    have hcall : ∃ j', c.run ops j = some j' ∧
        Holds Valid remaining source sources (c.leave left) j' := by
      cases c with
      | advance => exact advance_spec h hj
      | seek key => exact seek_spec h hj key
    obtain ⟨j', hrun, hj'⟩ := hcall
    simpa [hrun] using ih hj'

theorem next_unfolds {j : Join S n} {left : List K}
    (hj : Holds Valid remaining source sources left j) : Unfolds (next ops) j left := by
  induction left generalizing j with
  | nil => exact .done (by simp [next, current_spec h hj])
  | cons k left ih =>
    obtain ⟨j', hadvance, hj'⟩ := advance_spec h hj
    exact .step (by simp [next, current_spec h hj, hadvance]) (ih hj')

end Join

/-! ## §3 Joins of Patricia trees -/

/-- Keys, in their signed order. -/
def SignedKey : Type := Key

instance : LinearOrder SignedKey :=
  LinearOrder.lift' (fun k : Key => k.toInt) fun _ _ => BitVec.eq_of_toInt_eq

theorem lt_iff_slt {k k' : SignedKey} : k < k' ↔ BitVec.slt (n := 63) k k' = true :=
  BitVec.slt_iff_toInt_lt.symm

theorem le_iff_sle {k k' : SignedKey} : k ≤ k' ↔ BitVec.sle (n := 63) k k' = true :=
  BitVec.sle_iff_toInt_le.symm

/-- The keys of bindings. -/
def keysOf {α : Type} (l : List (Key × α)) : List SignedKey := l.map Prod.fst

variable {α : Type}

theorem keysOf_head? (l : List (Key × α)) :
    (keysOf l).head? = l.head?.map Prod.fst := by
  cases l <;> rfl

theorem keysOf_tail (l : List (Key × α)) : keysOf l.tail = (keysOf l).tail := by
  cases l <;> rfl

theorem keysOf_increasing {l : List (Key × α)}
    (hl : Sorted l) : Increasing (keysOf l) :=
  List.pairwise_map.2 (hl.imp fun hlt => lt_iff_slt.2 hlt)

theorem keysOf_fromKey (k : SignedKey) {l : List (Key × α)}
    (hl : Sorted l) :
    keysOf (PatriciaTree.fromKey k l) = (keysOf l).dropWhile (· < k) := by
  have hincreasing := keysOf_increasing hl
  refine (keysOf_increasing (hl.filter _)).ext (hincreasing.dropWhile k) fun x => ?_
  rw [hincreasing.mem_dropWhile, le_iff_sle]
  constructor
  · intro hx
    obtain ⟨b, hb, rfl⟩ := List.mem_map.1 hx
    obtain ⟨hb, hle⟩ := List.mem_filter.1 hb
    exact ⟨List.mem_map_of_mem hb, hle⟩
  rintro ⟨hx, hle⟩
  obtain ⟨b, hb, rfl⟩ := List.mem_map.1 hx
  exact List.mem_map_of_mem (List.mem_filter.2 ⟨hb, hle⟩)

theorem remaining_sorted {it : PatriciaTree.Iterator α} (h : it.Ok) :
    Sorted it.remaining := by
  cases it with
  | done => exact List.Pairwise.nil
  | next b rest => exact h.2

section MapIterator

variable {C α : Type}

/-- An iterator that has bindings of the map in its channel left. -/
structure MapIterator.Valid (channels : C → T α) (i : MapIterator C α) : Prop where
  ok : i.iterator.Ok
  bindings : ∀ b ∈ i.iterator.remaining, PatriciaTree.findOpt b.1 (channels i.map) = some b.2

def MapIterator.remaining (i : MapIterator C α) : List SignedKey := keysOf i.iterator.remaining

/-- The channels of an iterator. -/
def MapIterator.source (i : MapIterator C α) : C × C := (i.map, i.handler)

/-- `mapOps`, on keys in their signed order. -/
def signedMapOps (C α : Type) : IteratorOps (C → T α) (MapIterator C α) SignedKey :=
  mapOps C α

theorem signedMapOps_contract (channels : C → T α) :
    Contract (signedMapOps C α) (MapIterator.Valid channels) MapIterator.remaining
      MapIterator.source where
  increasing i hi := keysOf_increasing (remaining_sorted hi.ok)
  current i _ := by
    rw [MapIterator.remaining, keysOf_head?, ← PatriciaTree.current_eq]
    rfl
  advance i hi := by
    obtain ⟨hok, hrem⟩ := PatriciaTree.advance_spec hi.ok
    refine ⟨⟨hok, fun b hb => hi.bindings b ?_⟩, ?_, rfl⟩
    · exact List.mem_of_mem_tail (hrem ▸ hb)
    · rw [MapIterator.remaining, MapIterator.remaining, ← keysOf_tail, ← hrem]; rfl
  seek i k hi := by
    obtain ⟨hok, hrem⟩ := PatriciaTree.seek_spec k hi.ok
    refine ⟨⟨hok, fun b hb => hi.bindings b ?_⟩, ?_, rfl⟩
    · exact (List.mem_filter.1 (hrem ▸ hb)).1
    rw [MapIterator.remaining, MapIterator.remaining,
      ← keysOf_fromKey k (remaining_sorted hi.ok), ← hrem]
    rfl
  equalKey _ _ _ := beq_iff_eq
  compareKey _ k k' := by
    refine ⟨?_, PatriciaTree.compareInt_eq_zero_iff⟩
    rw [lt_iff_slt]
    exact PatriciaTree.compareInt_neg_iff

/-- Iterators start on the bindings of the map in their channel. -/
theorem signedMapOps_initialises (channels : C → T α) :
    Initialises (signedMapOps C α) channels (MapIterator.Valid channels) MapIterator.remaining
      MapIterator.source {m | (channels m.1).WF}
      fun m => keysOf (PatriciaTree.toList (channels m.1)) := by
  intro i hwf
  obtain ⟨hok, hrem⟩ := PatriciaTree.iterator_spec hwf
  refine ⟨⟨hok, fun b hb => (PatriciaTree.mem_toList hwf b).1 (hrem ▸ hb)⟩, ?_, rfl⟩
  exact congrArg keysOf hrem

end MapIterator

/-! ## §4 The common keys -/

/-- The array with the elements that sorting its list gives. -/
def sortArray (n : Nat) (cmp : S → S → Int) (f : Fin n → S) (i : Fin n) : S :=
  ((ofFn f).mergeSort fun s s' => cmp s s' ≤ 0).get (i.cast (by simp))

theorem sortArray_sorts (n : Nat) : Sorts (S := S) (sortArray n) := by
  intro cmp hcmp f
  have hofFn : ofFn (sortArray n cmp f) =
      (ofFn f).mergeSort fun s s' => cmp s s' ≤ 0 := by
    refine List.ext_getElem (by simp) fun i _ _ => ?_
    simp [sortArray]
  rw [hofFn]
  refine ⟨List.mergeSort_perm _ _, ?_⟩
  have hle : ∀ s s', (decide (cmp s s' ≤ 0) || decide (cmp s' s ≤ 0)) = true := by
    intro s s'
    have hopposite := hcmp.antisymm s s'
    simp only [Bool.or_eq_true, decide_eq_true_iff]
    omega
  have htrans : ∀ s s' s'', decide (cmp s s' ≤ 0) = true → decide (cmp s' s'' ≤ 0) = true →
      decide (cmp s s'' ≤ 0) = true := by simpa using hcmp.trans
  simpa using List.pairwise_mergeSort htrans hle (ofFn f)

/-- A join that is initialised and called in any way stands on the first common key that it has
not passed, with all its iterators, and yields the remaining ones in order. -/
theorem join_enumerates_intersection {ops : IteratorOps E S K} {Valid : S → Prop}
    {remaining : S → List K} {source : S → M} (h : Contract ops Valid remaining source) {env : E}
    {sources : Set M} {keys : M → List K}
    (hinit : Initialises ops env Valid remaining source sources keys)
    {sort : ∀ n, (S → S → Int) → (Fin n → S) → Fin n → S} (hsort : ∀ n, Sorts (sort n))
    {its : List S} (hne : its ≠ []) (hits : ∀ it ∈ its, source it ∈ sources) :
    ∃ (n : Nat) (j : Join S n) (full : List K), create its = .ok ⟨n, j⟩ ∧
      Increasing full ∧ (∀ k, k ∈ full ↔ ∀ it ∈ its, k ∈ keys (source it)) ∧
      ∀ calls : List (Call K), ∃ j',
        (do let j ← init ops (sort (n + 1)) env j; calls.foldlM (Call.run ops) j) = some j' ∧
        current ops j' = (calls.foldl Call.leave full).head? ∧
        (∀ k, current ops j' = some k → ∀ i, ops.current (j'.iterators i) = some k) ∧
        Unfolds (next ops) j' (calls.foldl Call.leave full) := by
  cases its with
  | nil => exact absurd rfl hne
  | cons it its =>
    let iterators : Fin (its.length + 1) → S := fun i => (it :: its).get i
    have hforall : ∀ p : S → Prop, (∀ i, p (iterators i)) ↔ ∀ s ∈ it :: its, p s := fun p => by
      rw [List.forall_mem_iff_get]
      rfl
    have hinit' : Initialises ops env Valid remaining source (range (source ∘ iterators))
        keys := by
      rintro s ⟨i, hi⟩
      refine hinit s (hi ▸ ?_)
      exact (hforall fun s => source s ∈ sources).2 hits i
    obtain ⟨hvalid, hremaining, -⟩ := hinit it (hits it List.mem_cons_self)
    have hincreasing := h.increasing _ hvalid
    rw [hremaining] at hincreasing
    obtain ⟨full, hfull⟩ := exists_isCommon
      (fun m : range (source ∘ iterators) => keys m) (i := ⟨_, 0, rfl⟩) hincreasing
    refine ⟨its.length, ⟨iterators, false⟩, full, rfl, hfull.increasing, fun k => ?_,
      fun calls => ?_⟩
    · rw [hfull.mem, ← hforall fun s => k ∈ keys (source s), Subtype.forall]
      exact Set.forall_mem_range (f := source ∘ iterators) (p := fun m => k ∈ keys m)
    obtain ⟨j, hj, hholds⟩ := init_spec h hinit' (hsort _) (j := ⟨iterators, false⟩) rfl hfull
    obtain ⟨j', hrun, hj'⟩ := run_spec h calls hholds
    refine ⟨j', ?_, current_spec h hj', fun k hk => on_current h hj' hk, next_unfolds h hj'⟩
    rw [hj]
    exact hrun

open PatriciaTree (ofList) in
/-- Three maps with two common keys, of either sign. -/
theorem join_enumerates_intersection_maps :
    let channels : Nat → T Bool := fun c =>
      ofList ([[(3, true), (-2, true), (7, false)], [(7, true), (-2, true)],
        [(-2, false), (5, true), (7, true), (-9, true)]].getD c [])
    let its : List (MapIterator Nat Bool) := [0, 1, 2].map fun c => createMapIterator c (c + 3)
    ∃ (n : Nat) (j : Join (MapIterator Nat Bool) n) (full : List SignedKey),
      create its = .ok ⟨n, j⟩ ∧ Increasing full ∧
      (∀ k, k ∈ full ↔ ∀ it ∈ its, k ∈ keysOf (PatriciaTree.toList (channels it.source.1))) ∧
      ∀ calls : List (Call SignedKey), ∃ j',
        (do let j ← init (signedMapOps Nat Bool) (sortArray (n + 1)) channels j
            calls.foldlM (Call.run (signedMapOps Nat Bool)) j) = some j' ∧
        current (signedMapOps Nat Bool) j' = (calls.foldl Call.leave full).head? ∧
        (∀ k, current (signedMapOps Nat Bool) j' = some k →
          ∀ i, (signedMapOps Nat Bool).current (j'.iterators i) = some k) ∧
        Unfolds (next (signedMapOps Nat Bool)) j' (calls.foldl Call.leave full) := by
  intro channels its
  exact join_enumerates_intersection (signedMapOps_contract channels)
    (signedMapOps_initialises channels) sortArray_sorts (by simp [its])
    fun it _ => (PatriciaTree.ofList_refines _).wf

end Oxcaml.Flambda2.Leapfrog
