/-
Oxcaml.Runtime.FrameDescriptorsTheorems — the table of the frame descriptors over any
history of registrations and unregistrations.

§1 and §2 are about the slots: the mask goes around them in a circle, and the loops are
those of Oxcaml.Lib.LinearProbing. §3 gives each operation on the table one theorem about
`Stores`, which says that the hash table holds the descriptors of a list of frame tables.
§4 is about the history: which histories are `Admissible` depends on the tables alone, and
`run_stores` finds the state that such a history leads to.
-/
import Oxcaml.Lib.LinearProbing
import Oxcaml.Runtime.FrameDescriptors

set_option linter.all false

namespace Oxcaml.Runtime.FrameDescriptors

open List (append_nil length_append length_eq_zero_iff length_nil mem_append_left)

open Lib.LinearProbing

/-! ## §1 The circle of the slots -/

/-- The mask of a hash table. -/
structure Sized (mask : ℤ) (n : ℕ) : Prop where
  mask_eq : mask = n - 1
  power : ∃ k ≤ 31, n = 2 ^ k

variable {mask : ℤ} {n : ℕ} {descriptors : Slots} {e : FrameDescrEntry}

theorem Sized.pos (h : Sized mask n) : 0 < n := by
  obtain ⟨k, -, rfl⟩ := h.power
  positivity

theorem Sized.and_mask (h : Sized mask n) (x : ℕ) : x &&& uintnat mask = x % n := by
  obtain ⟨k, hk, rfl⟩ := h.power
  have hpos : 1 ≤ 2 ^ k := Nat.one_le_two_pow
  have hle : 2 ^ k ≤ 2 ^ 31 := Nat.pow_le_pow_right (by omega) hk
  have hmask : uintnat mask = 2 ^ k - 1 := by
    unfold uintnat
    rw [h.mask_eq]
    omega
  rw [hmask, Nat.and_two_pow_sub_one_eq_mod]

theorem Sized.hashRetaddr_lt (h : Sized mask n) (addr : ℕ) : hashRetaddr addr mask < n := by
  unfold hashRetaddr
  rw [h.and_mask]
  exact Nat.mod_lt _ h.pos

variable {a i : ℕ}

theorem Sized.nextSlot (h : Sized mask n) (ha : a < n) : nextSlot mask a = next n a := by
  obtain ⟨k, hk, hn⟩ := h.power
  have hle : 2 ^ k ≤ 2 ^ 31 := Nat.pow_le_pow_right (by omega) hk
  unfold FrameDescriptors.nextSlot next
  have hmod : (a + 1) % 2 ^ 64 = a + 1 := Nat.mod_eq_of_lt (by omega)
  rw [h.and_mask, hmod]
  split_ifs with heq
  · rw [heq, Nat.mod_self]
  · exact Nat.mod_eq_of_lt (by omega)

/-- The home slot of an entry. -/
def home (mask : ℤ) (e : FrameDescrEntry) : ℕ := hashRetaddr e.retaddr mask

/-- The loops find the first slot to stop at, and end when there is one. -/
theorem probe_ok (stop : Option FrameDescrEntry → Bool) (hs : Sized mask descriptors.length)
    {q : ℕ} {x : Option FrameDescrEntry} (hq : descriptors[q]? = some x) (hstop : stop x)
    (fuel : ℕ) {h : ℕ} (hlt : h < descriptors.length)
    (hfuel : steps descriptors.length h q < fuel) :
    ∃ p y, probe mask stop descriptors fuel h = .ok p ∧ descriptors[p]? = some y ∧ stop y ∧
      ∀ r z, steps descriptors.length h r < steps descriptors.length h p →
        descriptors[r]? = some z → ¬stop z := by
  have hqlt := (List.getElem?_eq_some_iff.1 hq).1
  induction fuel generalizing h with
  | zero => omega
  | succ fuel ih =>
    have hget : descriptors[h]? = some descriptors[h] := List.getElem?_eq_getElem hlt
    have hread : read descriptors h = .ok descriptors[h] := Lib.read_eq hget
    rw [probe, hread]
    by_cases hh : stop descriptors[h]
    · refine ⟨h, descriptors[h], by simp [bind, Except.bind, hh, pure, Except.pure], hget, hh, ?_⟩
      intro r z hr
      rw [steps_self] at hr
      omega
    have hne : h ≠ q := by
      intro heq
      subst heq
      rw [hget] at hq
      simp only [Option.some.injEq] at hq
      exact hh (hq ▸ hstop)
    have hdist := steps_next_left hlt hqlt hne
    obtain ⟨p, y, hp, hy, hsy, hfirst⟩ := ih (next_lt hlt) (by omega)
    have hplt := (List.getElem?_eq_some_iff.1 hy).1
    refine ⟨p, y, ?_, hy, hsy, ?_⟩
    · simpa [bind, Except.bind, hh, hs.nextSlot hlt] using hp
    intro r z hr hz
    have hrlt := (List.getElem?_eq_some_iff.1 hz).1
    by_cases hrh : h = r
    · subst hrh
      rw [hget] at hz
      simp only [Option.some.injEq] at hz
      exact hz ▸ hh
    refine hfirst r z ?_ hz
    have h1 := steps_next_left hlt hrlt hrh
    have h2 : h ≠ p := by
      intro heq
      rw [← heq, steps_self] at hr
      omega
    have h3 := steps_next_left hlt hplt h2
    omega

/-! ## §2 The slots -/

/-- An entry takes an empty slot. -/
theorem fillEntry_ok (hs : Sized mask descriptors.length) (hp : Probed (home mask) descriptors)
    (hfree : (stored descriptors).length < descriptors.length) (e : FrameDescrEntry) :
    ∃ descriptors', fillEntry mask descriptors e = .ok descriptors' ∧
      descriptors'.length = descriptors.length ∧ Probed (home mask) descriptors' ∧
      (stored descriptors').Perm (e :: stored descriptors) := by
  obtain ⟨q, hq, hnone⟩ := exists_none hfree
  have hhome := hs.hashRetaddr_lt e.retaddr
  obtain ⟨p, y, hprobe, hy, hstop, hfirst⟩ := probe_ok Option.isNone hs hnone rfl
    descriptors.length hhome (steps_lt hhome hq)
  obtain rfl : y = none := by simpa using hstop
  refine ⟨descriptors.set p (some e), ?_, by simp, ?_, stored_set_some hy e⟩
  · rw [fillEntry, hprobe]; exact Lib.write_eq (List.getElem?_eq_some_iff.1 hy).1 _
  refine hp.insert hy hhome ?_
  intro r hr hdist hrnone
  exact hfirst r none hdist hrnone rfl

theorem fillEntries_ok (entries : List FrameDescrEntry) (hs : Sized mask descriptors.length)
    (hp : Probed (home mask) descriptors)
    (hfree : (stored descriptors).length + entries.length ≤ descriptors.length) :
    ∃ descriptors', entries.foldlM (fillEntry mask) descriptors = .ok descriptors' ∧
      descriptors'.length = descriptors.length ∧ Probed (home mask) descriptors' ∧
      (stored descriptors').Perm (entries ++ stored descriptors) := by
  induction entries generalizing descriptors with
  | nil => exact ⟨descriptors, rfl, rfl, hp, List.Perm.refl _⟩
  | cons e entries ih =>
    simp only [List.length_cons] at hfree
    obtain ⟨d₁, hfill, hlen, hp₁, hperm⟩ := fillEntry_ok hs hp (by omega) e
    have hlen₁ := hperm.length_eq
    simp only [List.length_cons] at hlen₁
    obtain ⟨d₂, hfold, hlen₂, hp₂, hperm₂⟩ := ih (by rwa [hlen]) hp₁ (by omega)
    refine ⟨d₂, ?_, by omega, hp₂, ?_⟩
    · rw [List.foldlM_cons, hfill]; exact hfold
    · exact hperm₂.trans ((hperm.append_left entries).trans List.perm_middle)

/-- The test for an entry that stays where it is. -/
theorem keep_iff {j r : ℕ} (hi : i < a) (hj : j < a) (hr : r < a) (hij : i ≠ j) :
    (j < r ∧ r ≤ i) ∨ (i < j ∧ j < r) ∨ (r ≤ i ∧ i < j) ↔ ¬steps a r j < steps a r i := by
  unfold steps
  split_ifs <;> lia

section RemoveLoop

attribute [local grind =] removeLoop removeFrametables

variable {j i : ℕ} (fuel : ℕ)

theorem removeLoop_none (h : descriptors[nextSlot mask i]? = some none) :
    removeLoop mask (fuel + 1) descriptors j i = .ok descriptors := by
  have hread : read descriptors (nextSlot mask i) = .ok none := Lib.read_eq h
  simp [removeLoop, hread, bind, Except.bind, pure, Except.pure]

section

variable (h : descriptors[nextSlot mask i]? = some (some e))
include h

theorem removeLoop_keep
    (hkeep : (j < home mask e ∧ home mask e ≤ nextSlot mask i) ∨
      (nextSlot mask i < j ∧ j < home mask e) ∨
        (home mask e ≤ nextSlot mask i ∧ nextSlot mask i < j)) :
    removeLoop mask (fuel + 1) descriptors j i =
      removeLoop mask fuel descriptors j (nextSlot mask i) := by
  have hread : read descriptors (nextSlot mask i) = .ok (some e) := Lib.read_eq h
  unfold home at hkeep
  simp only [removeLoop, hread, bind, Except.bind, if_pos hkeep]

theorem removeLoop_move (hj : j < descriptors.length)
    (hmove : ¬((j < home mask e ∧ home mask e ≤ nextSlot mask i) ∨
      (nextSlot mask i < j ∧ j < home mask e) ∨
      (home mask e ≤ nextSlot mask i ∧ nextSlot mask i < j))) :
    removeLoop mask (fuel + 1) descriptors j i =
      removeLoop mask fuel ((descriptors.set j (some e)).set (nextSlot mask i) none)
        (nextSlot mask i) (nextSlot mask i) := by
  have hread : read descriptors (nextSlot mask i) = .ok (some e) := Lib.read_eq h
  have hlt := (List.getElem?_eq_some_iff.1 h).1
  have hw₁ : write descriptors j (some e) = .ok (descriptors.set j (some e)) := Lib.write_eq hj _
  have hw₂ : write (descriptors.set j (some e)) (nextSlot mask i) none =
      .ok ((descriptors.set j (some e)).set (nextSlot mask i) none) :=
    Lib.write_eq (by simpa using hlt) _
  unfold home at hmove
  simp only [removeLoop, hread, bind, Except.bind, if_neg hmove, hw₁, hw₂]

end

/-- The loop closes the hole, and ends when there is another empty slot. -/
theorem removeLoop_ok {z : ℕ} (hs : Sized mask descriptors.length)
    (hole : Hole (home mask) descriptors j i) (hz : descriptors[z]? = some none) (hzj : z ≠ j)
    (hzi : z ≠ i) (hfuel : steps descriptors.length i z ≤ fuel) :
    ∃ descriptors', removeLoop mask fuel descriptors j i = .ok descriptors' ∧
      descriptors'.length = descriptors.length ∧ Probed (home mask) descriptors' ∧
      (stored descriptors').Perm (stored descriptors) := by
  have hzlt := (List.getElem?_eq_some_iff.1 hz).1
  have hi := hole.lt
  have hj := hole.lt_hole
  induction fuel generalizing descriptors j i with
  | zero => unfold steps at hfuel; split_ifs at hfuel <;> lia
  | succ fuel ih =>
    have hnlt := next_lt hi
    have hsteps := steps_next_left hi hzlt (Ne.symm hzi)
    have hnext := hs.nextSlot hi
    have hget : ∃ slot, descriptors[next descriptors.length i]? = some slot :=
      ⟨_, List.getElem?_eq_getElem hnlt⟩
    obtain ⟨slot, hget⟩ := hget
    cases slot with
    | none =>
      exact ⟨descriptors, removeLoop_none fuel (hnext ▸ hget), rfl, hole.probed hget, .refl _⟩
    | some entry =>
      have hzn : z ≠ next descriptors.length i := by
        intro heq
        rw [← heq, hz] at hget
        simp at hget
      have hjn : next descriptors.length i ≠ j := by
        intro heq
        rw [heq, hole.hole] at hget
        simp at hget
      have hkeep := keep_iff hnlt hj (hole.home_lt _ _ hget) hjn
      rw [← hnext] at hget hzn hjn hkeep hsteps hnlt
      by_cases hcross : steps descriptors.length (home mask entry) j <
          steps descriptors.length (home mask entry) (nextSlot mask i)
      · have hmove := hole.move (hnext ▸ hget) (hnext ▸ hcross)
        rw [← hnext] at hmove
        have hzset : ((descriptors.set j (some entry)).set (nextSlot mask i) none)[z]? =
            some none := by
          rw [List.getElem?_set_ne (Ne.symm hzn), List.getElem?_set_ne (Ne.symm hzj)]
          exact hz
        obtain ⟨d, hd, hlen, hp, hperm⟩ := ih (by simpa using hs) hmove hzset hzn hzn
          (by simp only [List.length_set]; omega) (by simpa using hzlt) (by simpa using hnlt)
          (by simpa using hnlt)
        refine ⟨d, ?_, by simpa using hlen, hp, hperm.trans ?_⟩
        · rw [removeLoop_move fuel hget hj fun hcond => hkeep.1 hcond hcross]; exact hd
        -- the entry has moved from the one slot to the other
        have hafter : (descriptors.set j (some entry))[nextSlot mask i]? = some (some entry) := by
          rw [List.getElem?_set_ne (Ne.symm hjn)]
          exact hget
        exact ((stored_set_none hafter).symm.trans (stored_set_some hole.hole entry)).cons_inv
      have hskip := hole.skip (hnext ▸ hget) (hnext ▸ hcross)
      rw [← hnext] at hskip
      rw [removeLoop_keep fuel hget (hkeep.2 hcross)]
      exact ih hs hskip hz hzj hzn (by omega) hzlt hnlt hj

end RemoveLoop

/-- The pointers in the hash table differ. -/
def PointersDiffer (entries : List FrameDescrEntry) : Prop :=
  ∀ e ∈ entries, ∀ e' ∈ entries, e.fd = e'.fd → e = e'

/-- An entry is removed, and the others are still reached. -/
theorem removeEntry_ok (hs : Sized mask descriptors.length) (hp : Probed (home mask) descriptors)
    (hfree : (stored descriptors).length < descriptors.length) (he : e ∈ stored descriptors)
    (hdiffer : PointersDiffer (stored descriptors)) :
    ∃ descriptors', removeEntry mask descriptors e = .ok descriptors' ∧
      descriptors'.length = descriptors.length ∧ Probed (home mask) descriptors' ∧
      (stored descriptors).Perm (e :: stored descriptors') := by
  obtain ⟨q, hq⟩ := mem_stored.1 he
  have hqlt := (List.getElem?_eq_some_iff.1 hq).1
  have hhome := hs.hashRetaddr_lt e.retaddr
  obtain ⟨p, y, hprobe, hy, hstop, -⟩ := probe_ok (fun slot => slot.any (·.fd = e.fd)) hs hq
    (by simp) descriptors.length hhome (steps_lt hhome hqlt)
  have hye : y = some e := by
    cases y with
    | none => simp at hstop
    | some e' =>
      have hfd : e'.fd = e.fd := by simpa using hstop
      rw [hdiffer e' (mem_stored.2 ⟨p, hy⟩) e he hfd]
  subst hye
  have hplt := (List.getElem?_eq_some_iff.1 hy).1
  obtain ⟨z, hz, hznone⟩ := exists_none hfree
  have hzp : z ≠ p := by
    intro heq
    rw [heq, hy] at hznone
    simp at hznone
  obtain ⟨d, hd, hlen, hpd, hperm⟩ := removeLoop_ok descriptors.length (by simpa using hs)
    (hp.hole hy) (by rw [List.getElem?_set_ne (Ne.symm hzp)]; exact hznone) hzp hzp
    (by rw [List.length_set]; exact (steps_lt hplt hz).le)
  refine ⟨d, ?_, by simpa using hlen, hpd, (stored_set_none hy).trans (hperm.symm.cons e)⟩
  have hwrite : write descriptors p none = .ok (descriptors.set p none) := Lib.write_eq hplt _
  rw [removeEntry, hprobe]
  simp only [bind, Except.bind, hwrite, List.length_set]
  exact hd

theorem PointersDiffer.of_perm_cons {entries entries' : List FrameDescrEntry}
    (h : PointersDiffer entries) (hperm : entries.Perm (e :: entries')) :
    PointersDiffer entries' := by
  intro a ha b hb
  exact h a (hperm.mem_iff.2 (List.mem_cons_of_mem _ ha)) b
    (hperm.mem_iff.2 (List.mem_cons_of_mem _ hb))

theorem removeEntries_ok (entries : List FrameDescrEntry) {rest : List FrameDescrEntry}
    (hs : Sized mask descriptors.length) (hp : Probed (home mask) descriptors)
    (hfree : (stored descriptors).length < descriptors.length)
    (hdiffer : PointersDiffer (stored descriptors))
    (hstored : (stored descriptors).Perm (entries ++ rest)) :
    ∃ descriptors', entries.foldlM (removeEntry mask) descriptors = .ok descriptors' ∧
      descriptors'.length = descriptors.length ∧ Probed (home mask) descriptors' ∧
      (stored descriptors').Perm rest := by
  induction entries generalizing descriptors with
  | nil => exact ⟨descriptors, rfl, rfl, hp, hstored⟩
  | cons e entries ih =>
    have he : e ∈ stored descriptors := hstored.mem_iff.2 (by simp)
    obtain ⟨d₁, hremove, hlen, hp₁, hperm⟩ := removeEntry_ok hs hp hfree he hdiffer
    have hlen₁ := hperm.length_eq
    simp only [List.length_cons] at hlen₁
    obtain ⟨d₂, hfold, hlen₂, hp₂, hperm₂⟩ := ih (by rwa [hlen]) hp₁ (by omega)
      (hdiffer.of_perm_cons hperm) ((hperm.symm.trans hstored).cons_inv)
    refine ⟨d₂, ?_, by omega, hp₂, hperm₂⟩
    rw [List.foldlM_cons, hremove]
    exact hfold

/-! ## §3 Frame tables -/

/-- The descriptors of a list of frame tables. -/
def entriesOf (tables : List Frametable) : List FrameDescrEntry := tables.flatMap frametableIter

/-- The return addresses of a list of frame tables. -/
def retaddrsOf (tables : List Frametable) : List ℕ := tables.flatMap (·.retaddrs)

/-- The frame tables may be registered at one time. -/
structure Together (tables : List Frametable) : Prop where
  retaddrs : (retaddrsOf tables).Nodup
  addresses : ∀ t ∈ tables, ∀ u ∈ tables, t.address = u.address → t = u

variable {tables tables' : List Frametable}

theorem frametableIter_retaddrs (tbl : Frametable) :
    (frametableIter tbl).map (·.retaddr) = tbl.retaddrs := by
  unfold frametableIter
  rw [List.map_map]
  exact List.zipIdx_map_fst 0 tbl.retaddrs

theorem mem_frametableIter {tbl : Frametable} : e ∈ frametableIter tbl ↔
      e.fd.frametable = tbl.address ∧ tbl.retaddrs[e.fd.position]? = some e.retaddr := by
  unfold frametableIter
  rw [List.mem_map]
  constructor
  · intro h
    obtain ⟨⟨r, i⟩, hmem, rfl⟩ := h
    exact ⟨rfl, List.mem_zipIdx_iff_getElem?.1 hmem⟩
  intro h
  obtain ⟨r, a, i⟩ := e
  obtain ⟨rfl, hget⟩ := h
  exact ⟨(r, i), List.mem_zipIdx_iff_getElem?.2 hget, rfl⟩

theorem entriesOf_append : entriesOf (tables ++ tables') = entriesOf tables ++ entriesOf tables' :=
  List.flatMap_append

@[simp] theorem entriesOf_nil : entriesOf [] = [] := rfl

theorem entriesOf_retaddrs (tables : List Frametable) :
    (entriesOf tables).map (·.retaddr) = retaddrsOf tables := by
  unfold entriesOf retaddrsOf
  rw [List.map_flatMap]
  simp only [frametableIter_retaddrs]

theorem entriesOf_length (tables : List Frametable) :
    (entriesOf tables).length = (retaddrsOf tables).length := by
  rw [← entriesOf_retaddrs, List.length_map]

theorem entriesOf_perm (h : tables.Perm tables') : (entriesOf tables).Perm (entriesOf tables') :=
  h.flatMap_right _

theorem retaddrsOf_perm (h : tables.Perm tables') :
    (retaddrsOf tables).Perm (retaddrsOf tables') := h.flatMap_right _

theorem countDescriptors_eq (tables : List Frametable) :
    countDescriptors tables = (entriesOf tables).length := by
  unfold countDescriptors
  rw [entriesOf_length]
  induction tables with
  | nil => rfl
  | cons t tables ih => simp [retaddrsOf, ih] at *

theorem foldlM_frametables (f : Slots → FrameDescrEntry → Except Exn Slots)
    (tables : List Frametable) (descriptors : Slots) :
    tables.foldlM (fun descriptors cur => (frametableIter cur).foldlM f descriptors) descriptors =
      (entriesOf tables).foldlM f descriptors := by
  induction tables generalizing descriptors with
  | nil => rfl
  | cons t tables ih =>
    simp only [List.foldlM_cons, entriesOf, List.flatMap_cons, List.foldlM_append]
    simp only [ih, entriesOf]

theorem Together.perm (h : Together tables) (hperm : tables.Perm tables') : Together tables' := by
  refine ⟨(retaddrsOf_perm hperm).nodup_iff.1 h.retaddrs, fun t ht u hu => ?_⟩
  exact h.addresses t (hperm.mem_iff.2 ht) u (hperm.mem_iff.2 hu)

theorem Together.of_append (h : Together (tables ++ tables')) : Together tables := by
  refine ⟨?_, fun t ht u hu => ?_⟩
  · have hnodup := h.retaddrs
    unfold retaddrsOf at hnodup
    rw [List.flatMap_append] at hnodup
    exact hnodup.of_append_left
  · exact h.addresses t (mem_append_left _ ht) u (mem_append_left _ hu)

theorem Together.pointersDiffer (h : Together tables) : PointersDiffer (entriesOf tables) := by
  intro e he e' he' hfd
  obtain ⟨t, ht, hmem⟩ := List.mem_flatMap.1 he
  obtain ⟨t', ht', hmem'⟩ := List.mem_flatMap.1 he'
  obtain ⟨ha, hr⟩ := mem_frametableIter.1 hmem
  obtain ⟨ha', hr'⟩ := mem_frametableIter.1 hmem'
  have heq : t = t' := h.addresses t ht t' ht' (by rw [← ha, ← ha', hfd])
  rw [← heq, ← hfd, hr] at hr'
  simp only [Option.some.injEq] at hr'
  cases e
  cases e'
  simp_all

/-- An entry is known by its return address. -/
theorem Together.entry_eq (h : Together tables) {e' : FrameDescrEntry} (he : e ∈ entriesOf tables)
    (he' : e' ∈ entriesOf tables) (heq : e.retaddr = e'.retaddr) : e = e' := by
  have hnodup : ((entriesOf tables).map (·.retaddr)).Nodup := by
    rw [entriesOf_retaddrs]
    exact h.retaddrs
  exact List.inj_on_of_nodup_map hnodup he he' heq

/-! ## §4 One step -/

/-- The state holds the registered frame tables, and those that wait to be removed. -/
structure Stores (table : FrameDescrs) (registered retired : List Frametable) : Prop where
  frametables : table.frametables.Perm registered
  zombies : table.zombies.Perm retired
  numDescr : table.numDescr = (stored table.descriptors).length
  entries : (stored table.descriptors).Perm (entriesOf (registered ++ retired))
  probed : Probed (home table.mask) table.descriptors
  size : table.descriptors = [] ∧ table.mask = -1 ∨
    Sized table.mask table.descriptors.length ∧ table.descriptors.length ≤ 2 ^ 30 ∧
      2 * (stored table.descriptors).length ≤ table.descriptors.length

variable {table : FrameDescrs} {registered retired : List Frametable}

theorem int_eq {x : ℤ} (h : -2 ^ 31 ≤ x) (h' : x < 2 ^ 31) : int x = x :=
  Int.bmod_eq_of_le (by omega) (by omega)

theorem isPowerOf2_pow (k : ℕ) : isPowerOf2 ((2 ^ k : ℕ) : ℤ) := by
  have hpos : 1 ≤ 2 ^ k := Nat.one_le_two_pow
  have hpred : (((2 ^ k : ℕ) : ℤ) - 1).toNat = 2 ^ k - 1 := by omega
  unfold isPowerOf2
  rw [hpred, Int.toNat_natCast, Nat.and_two_pow_sub_one_eq_mod, Nat.mod_self]
  simp

section

variable (h : Stores table registered retired)
include h

theorem Stores.capacity_eq :
    capacity table = .ok table.descriptors.length := by
  unfold capacity
  dsimp only
  rcases h.size with ⟨hnil, hmask⟩ | ⟨hs, hle, -⟩
  · rw [hnil, hmask]; rfl
  have hmask : int (table.mask + 1) = table.descriptors.length := by
    rw [hs.mask_eq, int_eq] <;> lia
  obtain ⟨k, -, hk⟩ := hs.power
  rw [hmask, if_pos]
  · rfl
  right
  rw [hk]
  exact isPowerOf2_pow k

theorem Stores.length_stored :
    (stored table.descriptors).length =
      (entriesOf registered).length + (entriesOf retired).length := by
  rw [h.entries.length_eq, entriesOf_append, length_append]

theorem Stores.length_lt :
    (stored table.descriptors).length ≤ 2 ^ 29 := by
  rcases h.size with ⟨hnil, -⟩ | ⟨-, hle, hlt⟩
  · rw [hnil]; simp [stored]
  · omega

/-- Cleaning removes the descriptors of the zombies. -/
theorem cleanFrameDescriptors_ok
    (htogether : Together (registered ++ retired)) :
    ∃ table', cleanFrameDescriptors table = .ok table' ∧ Stores table' registered [] ∧
      table'.descriptors.length = table.descriptors.length := by
  have hzombies := entriesOf_perm h.zombies
  have hstored : (stored table.descriptors).Perm
      (entriesOf table.zombies ++ entriesOf registered) := by
    refine h.entries.trans ?_
    rw [entriesOf_append]
    exact List.perm_append_comm.trans (hzombies.symm.append_right _)
  obtain ⟨d, hd, hlen, hprobed, hperm⟩ : ∃ d,
      (entriesOf table.zombies).foldlM (removeEntry table.mask) table.descriptors = .ok d ∧
      d.length = table.descriptors.length ∧ Probed (home table.mask) d ∧
      (stored d).Perm (entriesOf registered) := by
    rcases h.size with ⟨hnil, -⟩ | ⟨hs, -, hlt⟩
    · rw [hnil] at hstored
      obtain ⟨hz, hr⟩ := List.append_eq_nil_iff.1 hstored.symm.eq_nil
      rw [hz, hr, hnil]
      exact ⟨[], rfl, rfl, hnil ▸ h.probed, .refl _⟩
    have hpos := hs.pos
    have hdiffer : PointersDiffer (stored table.descriptors) := by
      intro e he e' he'
      exact htogether.pointersDiffer e (h.entries.mem_iff.1 he) e' (h.entries.mem_iff.1 he')
    exact removeEntries_ok _ hs h.probed (by omega) hdiffer hstored
  have hcount := hstored.length_eq
  rw [length_append, ← hperm.length_eq] at hcount
  have hsmall := h.length_lt
  refine ⟨{ table with
    descriptors := d
    numDescr := int (table.numDescr - countDescriptors table.zombies)
    zombies := [] }, ?_, ⟨h.frametables, .refl _, ?_, ?_, hprobed, ?_⟩, hlen⟩
  · unfold cleanFrameDescriptors
    rw [foldlM_frametables, hd]
    rfl
  · dsimp only; rw [h.numDescr, countDescriptors_eq, int_eq] <;> lia
  · rw [append_nil]; exact hperm
  rcases h.size with ⟨hnil, hmask⟩ | ⟨hs, hle, hlt⟩
  · rw [hnil] at hlen; exact .inl ⟨length_eq_zero_iff.1 hlen, hmask⟩
  right
  dsimp only
  rw [hlen]
  exact ⟨hs, hle, by omega⟩

end

/-- The loop finds a power of two that is large enough. -/
theorem growTblsize_ok (num fuel : ℕ) {k : ℕ} (hk : 2 ≤ k) (hpos : 0 < fuel)
    (hfuel : 2 * num < 2 ^ k + fuel) :
    ∃ k', growTblsize num fuel (2 ^ k) = .ok (2 ^ k') ∧ 2 * num ≤ 2 ^ k' ∧
      (k' = k ∨ 2 ^ k' < 4 * num) := by
  induction fuel generalizing k with
  | zero => omega
  | succ fuel ih =>
    unfold growTblsize
    have hk4 : 2 ^ 2 ≤ 2 ^ k := Nat.pow_le_pow_right (by omega) hk
    split_ifs with hlt
    · have hlt' : 2 ^ k < 2 * num := by exact_mod_cast hlt
      have hdouble : 2 ^ k * 2 = 2 ^ (k + 1) := (pow_succ 2 k).symm
      rw [hdouble]
      obtain ⟨k', hgrow, hle, hk'⟩ := ih (by omega : 2 ≤ k + 1) (by omega) (by omega)
      refine ⟨k', hgrow, hle, ?_⟩
      rcases hk' with rfl | hk'
      · right; omega
      · exact .inr hk'
    · have hle : ¬2 ^ k < 2 * num := fun hlt' => hlt (by exact_mod_cast hlt')
      exact ⟨k, rfl, by omega, .inl rfl⟩

theorem stored_replicate (n : ℕ) :
    stored (List.replicate n (none : Option FrameDescrEntry)) = [] := by
  simp [stored]

/-- The hash table is built anew, and holds at most 2³⁰ descriptors. -/
theorem rebuild_ok (tables : List Frametable) (hsmall : (entriesOf tables).length ≤ 2 ^ 30) :
    ∃ tblsize d, growTblsize (entriesOf tables).length (2 * (entriesOf tables).length + 1) 4 =
        .ok tblsize ∧
      Sized (int (tblsize - 1)) tblsize ∧
      fillHashtable (int (tblsize - 1)) (List.replicate tblsize none) tables = .ok d ∧
      d.length = tblsize ∧ Probed (home (int (tblsize - 1))) d ∧
      (stored d).Perm (entriesOf tables) ∧ 2 * (entriesOf tables).length ≤ tblsize ∧
      (tblsize = 4 ∨ tblsize < 4 * (entriesOf tables).length) := by
  obtain ⟨k, hgrow, hle, hk⟩ := growTblsize_ok (entriesOf tables).length
    (2 * (entriesOf tables).length + 1) (le_refl 2) (by omega) (by omega)
  have hk31 : k ≤ 31 := by
    rcases hk with rfl | hk
    · omega
    have hlt : 2 ^ k < 2 ^ 32 := by omega
    have hlt' := (Nat.pow_lt_pow_iff_right (by omega)).1 hlt
    omega
  have hle31 : 2 ^ k ≤ 2 ^ 31 := Nat.pow_le_pow_right (by omega) hk31
  have hpos : 1 ≤ 2 ^ k := Nat.one_le_two_pow
  have hs : Sized (int ((2 ^ k : ℕ) - 1)) (2 ^ k) := by
    refine ⟨?_, k, hk31, rfl⟩
    rw [int_eq] <;> lia
  have hs' : Sized (int ((2 ^ k : ℕ) - 1))
    (List.replicate (2 ^ k) (none : Option FrameDescrEntry)).length := by
    rwa [List.length_replicate]
  obtain ⟨d, hd, hlen, hprobed, hperm⟩ := fillEntries_ok (entriesOf tables) hs'
    (probed_replicate _ _) (by rw [stored_replicate]; simp; omega)
  rw [stored_replicate, append_nil] at hperm
  refine ⟨2 ^ k, d, hgrow, hs, ?_, by simpa using hlen, hprobed, hperm, hle, ?_⟩
  · unfold fillHashtable
    rw [foldlM_frametables]
    exact hd
  rcases hk with rfl | hk
  · exact .inl rfl
  · exact .inr hk

/-- Registration adds the descriptors to a hash table without zombies. -/
theorem addFrameDescriptors_ok (h : Stores table registered []) {new : List Frametable}
    (hne : new ≠ []) (hsmall : (entriesOf (new ++ registered)).length ≤ 2 ^ 29) :
    ∃ table', addFrameDescriptors table new = .ok table' ∧ Stores table' (new ++ registered) [] ∧
      (entriesOf (new ++ registered) ≠ [] ∨ table.descriptors ≠ [] → table'.descriptors ≠ []) := by
  have hlists : (new ++ table.frametables).Perm (new ++ registered) :=
    h.frametables.append_left new
  have hall := entriesOf_perm hlists
  have hzombies : table.zombies.Perm [] := h.zombies
  have hlen := h.length_stored
  have htotal := hall.length_eq
  have hadd : (entriesOf (new ++ registered)).length =
      (entriesOf new).length + (entriesOf registered).length := by
    rw [entriesOf_append, length_append]
  rw [entriesOf_nil, length_nil, Nat.add_zero] at hlen
  have hsum : table.numDescr + countDescriptors new =
      ((entriesOf (new ++ table.frametables)).length : ℕ) := by
    rw [h.numDescr, countDescriptors_eq]
    lia
  have hint : int ((entriesOf (new ++ table.frametables)).length : ℕ) =
      (entriesOf (new ++ table.frametables)).length := by
    rw [int_eq] <;> lia
  unfold addFrameDescriptors
  rw [if_neg hne, h.capacity_eq]
  simp only [bind, Except.bind, pure, Except.pure, hsum, Int.toNat_natCast, hint]
  split_ifs with hgrow
  · obtain ⟨tblsize, d, hsize, hs, hfill, hlend, hprobed, hperm, hle, hbound⟩ :=
      rebuild_ok (new ++ table.frametables) (by lia)
    have hpos := hs.pos
    have hle30 : tblsize ≤ 2 ^ 30 := by
      obtain ⟨k, -, rfl⟩ := hs.power
      rcases hbound with h4 | hlt
      · lia
      have hlt' : 2 ^ k < 2 ^ 31 := by lia
      have hk := (Nat.pow_lt_pow_iff_right (by lia)).1 hlt'
      exact Nat.pow_le_pow_right (by lia) (by lia)
    simp only [hsize, hfill]
    refine ⟨_, rfl, ⟨hlists, hzombies, ?_, ?_, hprobed, ?_⟩, fun _ => ?_⟩
    · rw [hperm.length_eq]
    · rw [append_nil]; exact hperm.trans hall
    · right
      rw [hlend, hperm.length_eq]
      exact ⟨hs, hle30, hle⟩
    intro hnil
    dsimp only at hnil
    rw [hnil] at hlend
    simp only [length_nil] at hlend
    lia
  obtain ⟨d, hd, hlend, hprobed, hperm⟩ : ∃ d,
      (entriesOf new).foldlM (fillEntry table.mask) table.descriptors = .ok d ∧
      d.length = table.descriptors.length ∧ Probed (home table.mask) d ∧
      (stored d).Perm (entriesOf new ++ stored table.descriptors) := by
    rcases h.size with ⟨hnil, -⟩ | ⟨hs, -, -⟩
    · have hnew : entriesOf new = [] := by
        rw [hnil] at hgrow
        simp only [length_nil] at hgrow
        exact length_eq_zero_iff.1 (by lia)
      rw [hnew]
      exact ⟨_, rfl, rfl, h.probed, .refl _⟩
    · exact fillEntries_ok _ hs h.probed (by lia)
  have hnum := hperm.length_eq
  rw [length_append] at hnum
  unfold fillHashtable
  rw [foldlM_frametables, hd]
  refine ⟨_, rfl, ⟨hlists, hzombies, ?_, ?_, hprobed, ?_⟩, ?_⟩
  · dsimp only; lia
  · refine hperm.trans ?_
    rw [append_nil, entriesOf_append]
    have hold := h.entries
    rw [append_nil] at hold
    exact hold.append_left _
  · dsimp only
    rw [hlend]
    rcases h.size with ⟨hnil, hmask⟩ | ⟨hs, hle, -⟩
    · rw [hnil] at hlend; exact .inl ⟨length_eq_zero_iff.1 hlend, hmask⟩
    · exact .inr ⟨hs, hle, by lia⟩
  intro hor hnil
  dsimp only at hnil
  rw [hnil] at hlend
  rcases hor with hentries | hdescriptors
  · have hzero := List.length_pos_of_ne_nil hentries
    simp only [length_nil] at hlend
    lia
  · exact hdescriptors (length_eq_zero_iff.1 hlend.symm)

variable {requests : List ℕ}

/-- The last request takes the place of one that is done. -/
theorem done_perm (h : requests[i]? = some a) :
    requests.Perm (a :: (requests.set i (requests.getD (requests.length - 1) 0)).take
      (requests.length - 1)) := by
  rcases List.eq_nil_or_concat requests with rfl | ⟨front, last, rfl⟩
  · simp at h
  have hlast : (front ++ [last]).getD front.length 0 = last := by simp [List.getD]
  simp only [List.concat_eq_append, length_append, List.length_singleton,
    Nat.add_sub_cancel, hlast] at h ⊢
  rcases lt_or_ge i front.length with hi | hi
  · rw [List.getElem?_append_left hi] at h
    have hget := (List.getElem?_eq_some_iff.1 h).2
    rw [List.set_append_left _ _ hi, List.take_left' (by simp)]
    have hfront := List.getElem_cons_eraseIdx_perm hi
    rw [hget] at hfront
    have hset := List.set_perm_cons_eraseIdx hi last
    -- both are the request, the last one, and the others
    have hleft : (front ++ [last]).Perm (last :: a :: front.eraseIdx i) :=
      (List.perm_append_singleton last front).trans (hfront.symm.cons last)
    have hright : (last :: a :: front.eraseIdx i).Perm (a :: front.set i last) :=
      (List.Perm.swap _ _ _).trans (hset.symm.cons a)
    exact hleft.trans hright
  have hieq : i = front.length := by
    have hlt := (List.getElem?_eq_some_iff.1 h).1
    simp at hlt
    omega
  subst hieq
  have ha : last = a := by simpa using h
  subst ha
  rw [List.set_append_right _ _ (le_refl _), List.take_left]
  exact List.perm_append_singleton last front

section RemoveFrametables

variable {current : Frametable} {next zombies : List Frametable} {requests : List ℕ}
    (resumed : Bool)

theorem removeFrametables_none (h : requests.idxOf? current.address = none) :
    removeFrametables resumed (current :: next) requests zombies =
      removeFrametables false next requests zombies >>= fun result =>
        pure (current :: result.1, result.2) := by
  cases resumed <;> simp only [removeFrametables, h]

theorem removeFrametables_some (h : requests.idxOf? current.address = some i) :
    removeFrametables resumed (current :: next) requests zombies =
      if requests.length - 1 = 0 then pure (next, current :: zombies)
      else removeFrametables true next
        ((requests.set i (requests.getD (requests.length - 1) 0)).take (requests.length - 1))
        (current :: zombies) := by
  cases resumed <;> simp only [removeFrametables, h]

end RemoveFrametables

/-- The loop moves one table for each request, and does not run off the end of the list. -/
theorem removeFrametables_ok {list : List Frametable} (resumed : Bool)
    (zombies : List Frametable) (hmore : resumed = true → requests ≠ []) (hnodup : requests.Nodup)
    (hin : ∀ a ∈ requests, ∃ t ∈ list, t.address = a) :
    ∃ kept moved zombies', removeFrametables resumed list requests zombies = .ok (kept, zombies') ∧
      list.Perm (moved ++ kept) ∧ (moved.map (·.address)).Perm requests ∧
      zombies'.Perm (moved ++ zombies) := by
  induction list generalizing resumed requests zombies with
  | nil =>
    have hnil : requests = [] := by
      refine List.eq_nil_iff_forall_not_mem.2 fun a ha => ?_
      obtain ⟨t, ht, -⟩ := hin a ha
      simp at ht
    subst hnil
    cases resumed with
    | true => exact absurd rfl (hmore rfl)
    | false => exact ⟨[], [], zombies, rfl, .refl _, .refl _, .refl _⟩
  | cons current next ih =>
    cases hidx : requests.idxOf? current.address with
    | none =>
      have hnot := List.idxOf?_eq_none_iff.1 hidx
      have hin' : ∀ a ∈ requests, ∃ t ∈ next, t.address = a := by
        intro a ha
        obtain ⟨t, ht, hta⟩ := hin a ha
        rcases List.mem_cons.1 ht with rfl | ht
        · exact absurd (hta ▸ ha) hnot
        · exact ⟨t, ht, hta⟩
      obtain ⟨kept, moved, zombies', hrest, hlist, hmoved, hz⟩ :=
        ih false zombies (by simp) hnodup hin'
      refine ⟨current :: kept, moved, zombies', ?_, ?_, hmoved, hz⟩
      · rw [removeFrametables_none resumed hidx, hrest]; rfl
      · exact (hlist.cons current).trans List.perm_middle.symm
    | some i =>
      have hi : requests[i]? = some current.address := by
        obtain ⟨hlt, heq, -⟩ := List.idxOf?_eq_some_iff.1 hidx
        rw [List.getElem?_eq_getElem hlt, heq]
      have hperm := done_perm hi
      rw [removeFrametables_some resumed hidx]
      generalize (requests.set i (requests.getD (requests.length - 1) 0)).take
        (requests.length - 1) = requests' at hperm
      have hlen := hperm.length_eq
      simp only [List.length_cons] at hlen
      split_ifs with hlast
      · have hnil : requests' = [] := length_eq_zero_iff.1 (by omega)
        rw [hnil] at hperm
        exact ⟨next, [current], current :: zombies, rfl, .refl _, hperm.symm, .refl _⟩
      have hnodup' := hperm.nodup_iff.1 hnodup
      obtain ⟨hnot, hnodup'⟩ := List.nodup_cons.1 hnodup'
      have hin' : ∀ a ∈ requests', ∃ t ∈ next, t.address = a := by
        intro a ha
        obtain ⟨t, ht, hta⟩ := hin a (hperm.mem_iff.2 (List.mem_cons_of_mem _ ha))
        rcases List.mem_cons.1 ht with rfl | ht
        · exact absurd (hta ▸ ha) hnot
        · exact ⟨t, ht, hta⟩
      have hne : requests' ≠ [] := by
        intro hnil
        rw [hnil] at hlen
        simp only [length_nil] at hlen
        omega
      obtain ⟨kept, moved, zombies', hrest, hlist, hmoved, hz⟩ :=
        ih true (current :: zombies) (fun _ => hne) hnodup' hin'
      refine ⟨kept, current :: moved, zombies', hrest, hlist.cons current, ?_, ?_⟩
      · exact (hmoved.cons current.address).trans hperm.symm
      · exact hz.trans List.perm_middle

/-- The addresses say which tables are meant. -/
theorem moved_perm {moved kept moved' kept' : List Frametable} (h : Together tables)
    (hperm : tables.Perm (moved ++ kept)) (hperm' : tables.Perm (moved' ++ kept'))
    (hsame : (moved.map (·.address)).Perm (moved'.map (·.address))) :
    moved.Perm moved' ∧ kept.Perm kept' := by
  -- a table is the first one with its address
  have hfind : ∀ l : List Frametable, (∀ t ∈ l, t ∈ tables) →
      (l.map (·.address)).filterMap (fun a => tables.find? (·.address = a)) = l := by
    intro l hl
    induction l with
    | nil => rfl
    | cons t l ih =>
      have ht := hl t List.mem_cons_self
      have hsome : tables.find? (·.address = t.address) = some t := by
        cases hf : tables.find? (·.address = t.address) with
        | none => have hnone := List.find?_eq_none.1 hf t ht; simp at hnone
        | some u =>
          have hu := List.mem_of_find?_eq_some hf
          have hua : u.address = t.address := by simpa using List.find?_some hf
          rw [h.addresses u hu t ht hua]
      rw [List.map_cons, List.filterMap_cons, hsome]
      dsimp only
      rw [ih fun u hu => hl u (List.mem_cons_of_mem _ hu)]
  have hmoved : moved.Perm moved' := by
    have hmap := hsame.filterMap fun a => tables.find? (·.address = a)
    rwa [hfind moved fun t ht => hperm.mem_iff.2 (mem_append_left _ ht),
      hfind moved' fun t ht => hperm'.mem_iff.2 (mem_append_left _ ht)] at hmap
  refine ⟨hmoved, ?_⟩
  have hboth : (moved' ++ kept).Perm (moved' ++ kept') :=
    (hmoved.symm.append_right kept).trans (hperm.symm.trans hperm')
  exact (List.perm_append_left_iff moved').1 hboth

/-- Unregistration moves the tables that are asked for. -/
theorem removeFrameDescriptors_ok (h : Stores table registered retired)
    (htogether : Together (registered ++ retired)) (hnodup : requests.Nodup)
    {moved kept : List Frametable} (hperm : registered.Perm (moved ++ kept))
    (hmoved : (moved.map (·.address)).Perm requests) :
    ∃ table', removeFrameDescriptors table requests = .ok table' ∧
      Stores table' kept (moved ++ retired) ∧ table'.descriptors = table.descriptors := by
  have hin : ∀ a ∈ requests, ∃ t ∈ table.frametables, t.address = a := by
    intro a ha
    obtain ⟨t, ht, hta⟩ := List.mem_map.1 (hmoved.mem_iff.2 ha)
    exact ⟨t, h.frametables.mem_iff.2 (hperm.mem_iff.2 (mem_append_left _ ht)), hta⟩
  obtain ⟨kept', moved', zombies', hremove, hlist, hrequests, hzombies⟩ :=
    removeFrametables_ok false table.zombies (by simp) hnodup hin
  obtain ⟨hm, hk⟩ := moved_perm htogether.of_append (h.frametables.symm.trans hlist) hperm
    (hrequests.trans hmoved.symm)
  refine ⟨{ table with frametables := kept', zombies := zombies' }, ?_,
    ⟨hk, ?_, h.numDescr, ?_, h.probed, h.size⟩, rfl⟩
  · unfold removeFrameDescriptors
    rw [hremove]
    rfl
  · exact hzombies.trans (hm.append h.zombies)
  refine h.entries.trans (entriesOf_perm ?_)
  have hswap : (moved ++ kept ++ retired).Perm (kept ++ (moved ++ retired)) := by
    rw [← List.append_assoc]
    exact List.perm_append_comm.append_right _
  exact (hperm.append_right retired).trans hswap

/-! ## §5 Histories -/

/-- What a history leaves: the registered frame tables, and those that have been unregistered
since the last registration. At one time at most `limit` descriptors are registered. -/
inductive History (limit : ℕ) : List Event → List Frametable → List Frametable → Prop
  | start : History limit [] [] []
  | register {events : List Event} {registered retired tables : List Frametable} :
      History limit events registered retired → tables ≠ [] → Together (tables ++ registered) →
      (retaddrsOf (tables ++ registered)).length ≤ limit →
      History limit (events ++ [.register tables]) (tables ++ registered) []
  | unregister {events : List Event} {registered retired moved kept : List Frametable}
      {requests : List ℕ} :
      History limit events registered retired → requests.Nodup →
      registered.Perm (moved ++ kept) → (moved.map (·.address)).Perm requests →
      History limit (events ++ [.unregister requests]) kept (moved ++ retired)

/-- A frame table with a descriptor has been registered. -/
def Started (events : List Event) : Prop :=
  ∃ tables, Event.register tables ∈ events ∧ retaddrsOf tables ≠ []

variable {events : List Event} {limit : ℕ}

theorem History.together (h : History limit events registered retired) :
    Together (registered ++ retired) := by
  induction h with
  | start => exact ⟨List.nodup_nil, by simp⟩
  | register _ _ htogether _ _ => rw [append_nil]; exact htogether
  | unregister _ _ hperm _ ih =>
    refine ih.perm ((hperm.append_right _).trans ?_)
    rw [← List.append_assoc]
    exact List.perm_append_comm.append_right _

theorem run_append (events : List Event) (event : Event) :
    run (events ++ [event]) = run events >>= fun table => step table event := by
  unfold run
  rw [List.foldlM_append]
  simp

theorem start_stores : Stores start [] [] :=
  ⟨.refl _, .refl _, rfl, .refl _, ⟨by simp [start], by simp [start]⟩, .inl ⟨rfl, rfl⟩⟩

/-- The state that a history leads to. -/
theorem run_stores (h : History (2 ^ 29) events registered retired) :
    ∃ table, run events = .ok table ∧ Stores table registered retired ∧
      (Started events → table.descriptors ≠ []) := by
  induction h with
  | start => exact ⟨start, rfl, start_stores, by simp [Started]⟩
  | @register events registered retired tables hprev hne htogether hsmall ih =>
    obtain ⟨table, hrun, hstores, hstarted⟩ := ih
    obtain ⟨table₁, hclean, hstores₁, hlen⟩ := cleanFrameDescriptors_ok hstores hprev.together
    have hfoldl : tables.foldl (fun new t => t :: new) [] = tables.reverse := by simp
    have hreverse : (tables.reverse ++ registered).Perm (tables ++ registered) :=
      (List.reverse_perm tables).append_right _
    obtain ⟨table₂, hadd, hstores₂, hne₂⟩ := addFrameDescriptors_ok hstores₁
      (show tables.reverse ≠ [] by simpa using hne)
      (by rw [entriesOf_length, (retaddrsOf_perm hreverse).length_eq]; exact hsmall)
    refine ⟨table₂, ?_, ?_, ?_⟩
    · rw [run_append, hrun]
      simp only [bind, Except.bind, step, registerFrametables, hfoldl, hclean]
      exact hadd
    · exact ⟨hstores₂.frametables.trans hreverse, hstores₂.zombies, hstores₂.numDescr,
        hstores₂.entries.trans (entriesOf_perm (hreverse.append_right _)), hstores₂.probed,
        hstores₂.size⟩
    intro hstart
    refine hne₂ ?_
    obtain ⟨new, hmem, hnew⟩ := hstart
    rcases List.mem_append.1 hmem with hmem | hmem
    · right
      intro hnil
      rw [hnil] at hlen
      exact hstarted ⟨new, hmem, hnew⟩ (length_eq_zero_iff.1 hlen.symm)
    left
    simp only [List.mem_singleton, Event.register.injEq] at hmem
    subst hmem
    have hpos := List.length_pos_of_ne_nil hnew
    refine List.ne_nil_of_length_pos ?_
    rw [entriesOf_length, (retaddrsOf_perm hreverse).length_eq, retaddrsOf,
      List.flatMap_append, length_append]
    exact Nat.add_pos_left hpos _
  | @unregister events registered retired moved kept requests hprev hnodup hperm hmoved ih =>
    obtain ⟨table, hrun, hstores, hstarted⟩ := ih
    obtain ⟨table₁, hremove, hstores₁, hsame⟩ :=
      removeFrameDescriptors_ok hstores hprev.together hnodup hperm hmoved
    refine ⟨table₁, ?_, hstores₁, ?_⟩
    · rw [run_append, hrun]; exact hremove
    intro hstart
    rw [hsame]
    refine hstarted ?_
    obtain ⟨new, hmem, hnew⟩ := hstart
    exact ⟨new, by simpa using hmem, hnew⟩

/-! ## §6 What a history guarantees -/

theorem Sized.iterate (h : Sized mask n) (ha : a < n) (d : ℕ) :
    (FrameDescriptors.nextSlot mask)^[d] a = (next n)^[d] a := by
  induction d with
  | zero => rfl
  | succ d ih =>
    rw [Function.iterate_succ_apply', Function.iterate_succ_apply', ih,
      h.nextSlot (iterate_next_lt ha d)]

/-- Linear probing goes from the hash of the entry to the slot over slots that are taken. -/
def Reached (table : FrameDescrs) (p : ℕ) (e : FrameDescrEntry) : Prop :=
  ∃ d, (nextSlot table.mask)^[d] (hashRetaddr e.retaddr table.mask) = p ∧
    ∀ d' < d, ∃ e', table.descriptors[(nextSlot table.mask)^[d'] (hashRetaddr e.retaddr
      table.mask)]? = some (some e')

section

variable (h : Stores table registered retired)
include h

theorem Stores.reached {p : ℕ}
    (hp : table.descriptors[p]? = some (some e)) : Reached table p e := by
  have hplt := (List.getElem?_eq_some_iff.1 hp).1
  rcases h.size with ⟨hnil, -⟩ | ⟨hs, -, -⟩
  · rw [hnil] at hp; simp at hp
  have hhome := hs.hashRetaddr_lt e.retaddr
  refine ⟨steps table.descriptors.length (hashRetaddr e.retaddr table.mask) p, ?_, ?_⟩
  · rw [hs.iterate hhome, iterate_steps hhome hplt]
  intro d hd
  have hlt := iterate_next_lt hhome d
  have hsteps := steps_iterate hhome (hd.trans (steps_lt hhome hplt))
  rw [hs.iterate hhome]
  cases hslot : table.descriptors[(next table.descriptors.length)^[d]
      (hashRetaddr e.retaddr table.mask)]? with
  | none => have hge := List.getElem?_eq_none_iff.1 hslot; omega
  | some slot =>
    cases slot with
    | some e' => exact ⟨e', rfl⟩
    | none => exact absurd hslot (h.probed.path p e hp _ hlt (by rw [home, hsteps]; exact hd))

theorem Stores.sized (hne : table.descriptors ≠ []) :
    Sized table.mask table.descriptors.length ∧
      2 * (stored table.descriptors).length ≤ table.descriptors.length := by
  rcases h.size with ⟨hnil, -⟩ | ⟨hs, -, hlt⟩
  · exact absurd hnil hne
  · exact ⟨hs, hlt⟩

/-- The search ends, at the entry or at an empty slot. -/
theorem Stores.find (hne : table.descriptors ≠ []) (pc : ℕ) :
    (∃ e ∈ entriesOf (registered ++ retired), e.retaddr = pc ∧
        findFrameDescr table pc = .ok (some e.fd)) ∨
      (∀ e ∈ entriesOf (registered ++ retired), e.retaddr ≠ pc) ∧
        findFrameDescr table pc = .ok none := by
  obtain ⟨hs, hlt⟩ := h.sized hne
  have hpos := hs.pos
  obtain ⟨z, hz, hnone⟩ := exists_none (show (stored table.descriptors).length < _ by omega)
  have hhome := hs.hashRetaddr_lt pc
  obtain ⟨p, slot, hprobe, hslot, hstop, hfirst⟩ :=
    probe_ok (fun slot => slot.all (·.retaddr = pc)) hs hnone rfl table.descriptors.length hhome
      (steps_lt hhome hz)
  have hread : read table.descriptors p = .ok slot := Lib.read_eq hslot
  have hfind : findFrameDescr table pc = .ok (slot.map (·.fd)) := by
    unfold findFrameDescr
    rw [hprobe]
    simp only [bind, Except.bind, hread]
    rfl
  rw [hfind]
  cases slot with
  | some e =>
    left
    exact ⟨e, h.entries.mem_iff.1 (mem_stored.2 ⟨p, hslot⟩), by simpa using hstop, rfl⟩
  | none =>
    right
    refine ⟨fun e he heq => ?_, rfl⟩
    obtain ⟨q, hq⟩ := mem_stored.1 (h.entries.mem_iff.2 he)
    have hqlt := (List.getElem?_eq_some_iff.1 hq).1
    have hplt := (List.getElem?_eq_some_iff.1 hslot).1
    have hpath := h.probed.path q e hq p hplt
    rw [home, heq] at hpath
    rcases Nat.lt_trichotomy (steps table.descriptors.length (hashRetaddr pc table.mask) p)
      (steps table.descriptors.length (hashRetaddr pc table.mask) q) with hbefore | hsame | hafter
    · exact hpath hbefore hslot
    · have hpq := steps_inj hhome hplt hqlt hsame
      rw [hpq, hq] at hslot
      simp at hslot
    · exact hfirst q (some e) hafter hq (by simpa using heq)

end

/-- The lists, the count and the paths are right. -/
structure Consistent (table : FrameDescrs) (registered retired : List Frametable) : Prop where
  frametables : table.frametables.Perm registered
  zombies : table.zombies.Perm retired
  numDescr : table.numDescr = (table.descriptors.filterMap id).length
  reached : ∀ (p : ℕ) e, table.descriptors[p]? = some (some e) → Reached table p e

/-- The hash table has its size, and a search finds the descriptors of the registered tables. -/
structure Answers (table : FrameDescrs) (registered retired : List Frametable) : Prop where
  capacity : ∃ k, table.descriptors.length = 2 ^ k ∧ capacity table = .ok (2 ^ k) ∧
    2 * table.numDescr ≤ 2 ^ k
  found : ∀ t ∈ registered, ∀ (i : ℕ) pc, t.retaddrs[i]? = some pc →
    findFrameDescr table pc = .ok (some ⟨t.address, i⟩)
  notFound : ∀ pc, pc ∉ retaddrsOf registered → pc ∉ retaddrsOf retired →
    findFrameDescr table pc = .ok none

theorem Stores.consistent (h : Stores table registered retired) :
    Consistent table registered retired :=
  ⟨h.frametables, h.zombies, h.numDescr, fun _ _ hp => h.reached hp⟩

theorem Stores.answers (h : Stores table registered retired)
    (htogether : Together (registered ++ retired)) (hne : table.descriptors ≠ []) :
    Answers table registered retired := by
  refine ⟨?_, fun t ht i pc hpc => ?_, fun pc hreg hret => ?_⟩
  · obtain ⟨hs, hlt⟩ := h.sized hne
    obtain ⟨k, -, hk⟩ := hs.power
    have hcap := h.capacity_eq
    rw [hk] at hlt hcap
    refine ⟨k, hk, by rw [hcap]; norm_num, ?_⟩
    rw [h.numDescr]
    exact_mod_cast hlt
  · have hmem : (⟨pc, ⟨t.address, i⟩⟩ : FrameDescrEntry) ∈ entriesOf (registered ++ retired) :=
      List.mem_flatMap.2 ⟨t, mem_append_left _ ht, mem_frametableIter.2 ⟨rfl, hpc⟩⟩
    rcases h.find hne pc with ⟨e, he, heq, hfind⟩ | ⟨hnone, -⟩
    · rw [htogether.entry_eq he hmem heq] at hfind; exact hfind
    · exact absurd rfl (hnone _ hmem)
  rcases h.find hne pc with ⟨e, he, heq, -⟩ | ⟨-, hfind⟩
  · have hmem : pc ∈ (entriesOf (registered ++ retired)).map (·.retaddr) :=
      List.mem_map.2 ⟨e, he, heq⟩
    rw [entriesOf_retaddrs, retaddrsOf, List.flatMap_append, List.mem_append] at hmem
    rcases hmem with hmem | hmem
    · exact absurd hmem hreg
    · exact absurd hmem hret
  · exact hfind

/-- After any history of registrations and unregistrations, each of which runs to its end, the
hash table is correct, once there has been a descriptor. -/
theorem frameDescrs_correct (h : History (2 ^ 29) events registered retired) :
    ∃ table, run events = .ok table ∧ Consistent table registered retired ∧
      (Started events → Answers table registered retired) := by
  obtain ⟨table, hrun, hstores, hstarted⟩ := run_stores h
  exact ⟨table, hrun, hstores.consistent, fun hs => hstores.answers h.together (hstarted hs)⟩

/-- Two tables, of which the first is unregistered, and a third one with the same address. -/
theorem frameDescrs_correct_reuse :
    ∃ table, run [.register [⟨1, [100, 260]⟩, ⟨2, [355]⟩], .unregister [1],
        .register [⟨3, [260]⟩]] = .ok table ∧
      Consistent table [⟨3, [260]⟩, ⟨2, [355]⟩] [] ∧ Answers table [⟨3, [260]⟩, ⟨2, [355]⟩] [] := by
  have first : History (2 ^ 29) ([] ++ [Event.register [⟨1, [100, 260]⟩, ⟨2, [355]⟩]])
      ([⟨1, [100, 260]⟩, ⟨2, [355]⟩] ++ []) [] :=
    .register .start (by simp) ⟨by decide, by decide⟩ (by decide)
  have second : History (2 ^ 29) (_ ++ [Event.unregister [1]]) [⟨2, [355]⟩] ([⟨1, [100, 260]⟩] ++ []) :=
    first.unregister (by decide) (.refl _) (.refl _)
  have third : History (2 ^ 29) (_ ++ [Event.register [⟨3, [260]⟩]]) ([⟨3, [260]⟩] ++ [⟨2, [355]⟩]) [] :=
    second.register (by simp) ⟨by decide, by decide⟩ (by decide)
  obtain ⟨table, hrun, hconsistent, hanswers⟩ := frameDescrs_correct third
  exact ⟨table, hrun, hconsistent, hanswers ⟨[⟨3, [260]⟩], by simp, by decide⟩⟩

/-- The mask is an `int`: with more than 2²⁹ descriptors the capacity overflows. -/
theorem register_large {t : Frametable} (hlarge : 2 ^ 29 < t.retaddrs.length)
    (hle : t.retaddrs.length ≤ 2 ^ 30) :
    ∃ table, run [.register [t]] = .ok table ∧ capacity table = .error .assertFailure := by
  have hlen : (entriesOf [t]).length = t.retaddrs.length := by
    rw [entriesOf_length]
    simp [retaddrsOf]
  obtain ⟨tblsize, d, hgrow, hs, hfill, -, -, -, hsize, hbound⟩ := rebuild_ok [t] (by omega)
  have htblsize : tblsize = 2 ^ 31 := by
    obtain ⟨k, hk, rfl⟩ := hs.power
    have hlt : 2 ^ 30 < 2 ^ k := by omega
    have hk' := (Nat.pow_lt_pow_iff_right (by omega)).1 hlt
    rw [show k = 31 by omega]
  refine ⟨⟨int t.retaddrs.length, int (tblsize - 1), d, [t], []⟩, ?_, ?_⟩
  · have hstart : capacity start = .ok 0 := rfl
    have hclean : cleanFrameDescriptors start = .ok start := rfl
    have hcount : countDescriptors [t] = t.retaddrs.length := by simp [countDescriptors]
    have hnum : start.numDescr = 0 := rfl
    have hmore : (0 : ℤ) < t.retaddrs.length * 2 := by omega
    rw [hlen] at hgrow
    simp only [run, List.foldlM_cons, List.foldlM_nil, step, registerFrametables, List.foldl_cons,
      List.foldl_nil, hclean, bind, Except.bind, addFrameDescriptors, List.cons_ne_nil, if_false,
      hstart, hcount, hnum, zero_add, if_pos hmore, Int.toNat_natCast, hgrow]
    have hlist : [t] ++ start.frametables = [t] := rfl
    rw [hlist, hfill]
    rfl
  · rw [htblsize]; rfl

/-- The capacity is 0 when no frame table has a descriptor, and it overflows when there are
too many. -/
theorem frameDescrs_not_always_correct :
    (¬∀ limit events registered retired, History limit events registered retired → events ≠ [] →
      ∃ table, run events = .ok table ∧ Consistent table registered retired ∧
        Answers table registered retired) ∧
    ∃ table, run [.register [⟨1, List.range (2 ^ 29 + 1)⟩]] = .ok table ∧
      capacity table = .error .assertFailure := by
  constructor
  · intro hall
    have hempty : History 0 ([] ++ [Event.register [⟨1, []⟩]]) ([⟨1, []⟩] ++ []) [] :=
      .register .start (by simp) ⟨by decide, by decide⟩ (by decide)
    obtain ⟨table, hrun, -, hanswers⟩ := hall _ _ _ _ hempty (by simp)
    have hstate : run ([] ++ [Event.register [⟨1, []⟩]]) = .ok ⟨0, -1, [], [⟨1, []⟩], []⟩ := rfl
    rw [hstate] at hrun
    injection hrun with hrun
    obtain ⟨k, hk, -⟩ := hanswers.capacity
    have hpos : 0 < 2 ^ k := by positivity
    rw [← hk, ← hrun] at hpos
    exact absurd hpos (by decide)
  · exact register_large (by rw [List.length_range]; omega) (by rw [List.length_range]; omega)

end Oxcaml.Runtime.FrameDescriptors
