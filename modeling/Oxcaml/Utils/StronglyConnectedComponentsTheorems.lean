/-
Oxcaml.Utils.StronglyConnectedComponentsTheorems — the components are right.

`aux` with enough fuel is a depth-first traversal (§1): `aux_spec` carries an invariant
of what is collected, by the nodes that are marked and the nodes that have been left.
The stack of the first pass is the order in which nodes are left, so its last node that
reaches a node is reached by it. In the second pass the marked nodes are always full
components, closed under predecessors; the nodes that a root adds are its component (§2).
The rest renames numbers: the two arrays of `component_graph` (§3), and the identifiers
of the nodes (§4).
-/
import Oxcaml.Lib.DepthFirst
import Oxcaml.Utils.StronglyConnectedComponents

set_option linter.all false

namespace Oxcaml.Utils.StronglyConnectedComponents

open List (getElem?_eq_getElem mem_cons mem_iff_getElem? replicate)

open Lib (Avoids Visit Mutual read_eq write_eq read_getD getD_set foldlM_ok mapM_ok)

/-! ## §1 Traversals -/

/-- The successors of a node. -/
def next (graph : Graph) (n : ℕ) : List ℕ := graph.getD n []

/-- The edges stay inside the nodes. -/
def Inside (graph : Graph) : Prop := ∀ n, ∀ d ∈ next graph n, d < graph.length

variable {graph : Graph} {n size m : ℕ}

theorem read_next (h : n < graph.length) : read graph n = .ok (next graph n) :=
  read_getD h

theorem lt_of_mem_next {d : ℕ} (h : d ∈ next graph n) : n < graph.length := by
  by_contra hn
  have hnone : graph[n]? = none := List.getElem?_eq_none (by omega)
  simp [next, hnone] at h

/-- The array `marked` has the set. -/
structure Marks (size : ℕ) (marked : List Bool) (M : Finset ℕ) : Prop where
  length : marked.length = size
  get : ∀ n < size, marked[n]? = some (decide (n ∈ M))

theorem marks_nil (size : ℕ) : Marks size (replicate size false) ∅ :=
  ⟨by simp, fun n hn => by simp [hn]⟩

theorem Marks.set {marked : List Bool} {M : Finset ℕ} (h : Marks size marked M)
    (hn : n < size) : Marks size (marked.set n true) (insert n M) := by
  refine ⟨by simpa using h.length, fun m hm => ?_⟩
  have hlen := h.length
  rcases eq_or_ne m n with rfl | hne
  · rw [List.getElem?_set_self (by omega)]; simp
  · rw [List.getElem?_set_ne (Ne.symm hne), h.get m hm]; simp [hne]

section Aux

variable {σ : Type} {graph : Graph} {enter leave : ℕ → σ → Except Exn σ}
  {I : Finset ℕ → List ℕ → σ → Prop}

/-- What is collected keeps the invariant, by the marked nodes and the nodes that are left. -/
structure Collects (size : ℕ) (enter leave : ℕ → σ → Except Exn σ)
    (I : Finset ℕ → List ℕ → σ → Prop) : Prop where
  enter : ∀ n M L s, n < size → n ∉ M → I M L s → ∃ s', enter n s = .ok s' ∧ I (insert n M) L s'
  leave : ∀ n M L s, n < size → n ∈ M → n ∉ L → I M L s →
    ∃ s', leave n s = .ok s' ∧ I M (L ++ [n]) s'

/-- The state of a traversal. -/
structure Traversal (size : ℕ) (I : Finset ℕ → List ℕ → σ → Prop) (M : Finset ℕ) (L : List ℕ)
    (state : List Bool × σ) : Prop where
  marks : Marks size state.1 M
  left : ∀ l ∈ L, l ∈ M
  collected : I M L state.2

/-- The traversal of a list, when that of a node is known. -/
theorem auxList_spec {fuel : ℕ} (hnode : ∀ n M L state, n < graph.length →
      (Finset.range graph.length \ M).card < fuel → Traversal graph.length I M L state →
      ∃ state' D, aux graph enter leave fuel n state = .ok state' ∧ Visit (next graph) M [n] D ∧
        Traversal graph.length I (M ∪ D.toFinset) (L ++ D) state')
    {ns : List ℕ} (hns : ∀ n ∈ ns, n < graph.length) {M : Finset ℕ} {L : List ℕ}
    {state : List Bool × σ} (hfuel : (Finset.range graph.length \ M).card < fuel)
    (hstate : Traversal graph.length I M L state) :
    ∃ state' D, ns.foldlM (fun state n => aux graph enter leave fuel n state) state = .ok state' ∧
      Visit (next graph) M ns D ∧ Traversal graph.length I (M ∪ D.toFinset) (L ++ D) state' := by
  induction ns generalizing M L state with
  | nil => exact ⟨state, [], rfl, .nil, by simpa using hstate⟩
  | cons n ns ih =>
    obtain ⟨state1, D1, hrun1, hvisit1, hstate1⟩ := hnode n M L state (hns n (by simp)) hfuel hstate
    have hcard : (Finset.range graph.length \ (M ∪ D1.toFinset)).card < fuel :=
      lt_of_le_of_lt (Finset.card_le_card
        (Finset.sdiff_subset_sdiff (Finset.Subset.refl _) Finset.subset_union_left)) hfuel
    obtain ⟨state2, D2, hrun2, hvisit2, hstate2⟩ :=
      ih (fun m hm => hns m (List.mem_cons_of_mem _ hm)) hcard hstate1
    refine ⟨state2, D1 ++ D2, ?_, hvisit1.append hvisit2, ?_⟩
    · rw [List.foldlM_cons, hrun1]; exact hrun2
    · simpa [Finset.union_assoc] using hstate2

theorem aux_spec (hgraph : Inside graph) (hI : Collects graph.length enter leave I) (fuel n : ℕ)
    (M : Finset ℕ) (L : List ℕ) (state : List Bool × σ) (hn : n < graph.length)
    (hfuel : (Finset.range graph.length \ M).card < fuel)
    (hstate : Traversal graph.length I M L state) :
    ∃ state' D, aux graph enter leave fuel n state = .ok state' ∧ Visit (next graph) M [n] D ∧
      Traversal graph.length I (M ∪ D.toFinset) (L ++ D) state' := by
  induction fuel generalizing n M L state with
  | zero => omega
  | succ fuel ih =>
    obtain ⟨marked, s⟩ := state
    have hread : read marked n = .ok (decide (n ∈ M)) := read_eq (hstate.marks.get n hn)
    by_cases hM : n ∈ M
    · refine ⟨(marked, s), [], ?_, .skip hM .nil, by simpa using hstate⟩
      simp [aux, hread, hM, bind, Except.bind, pure, Except.pure]
    · have hwrite : write marked n true = .ok (marked.set n true) :=
        write_eq (by have := hstate.marks.length; dsimp only at this; omega) _
      obtain ⟨s1, henter, hs1⟩ := hI.enter n M L s hn hM hstate.collected
      have hstate1 : Traversal graph.length I (insert n M) L (marked.set n true, s1) :=
        ⟨hstate.marks.set hn, fun l hl => Finset.mem_insert_of_mem (hstate.left l hl), hs1⟩
      have hcard : (Finset.range graph.length \ insert n M).card < fuel := by
        have hlt : (Finset.range graph.length \ insert n M).card <
            (Finset.range graph.length \ M).card := by
          refine Finset.card_lt_card ⟨Finset.sdiff_subset_sdiff (Finset.Subset.refl _)
            (Finset.subset_insert n M), fun hsub => ?_⟩
          have hmem := hsub (Finset.mem_sdiff.2 ⟨Finset.mem_range.2 hn, hM⟩)
          exact (Finset.mem_sdiff.1 hmem).2 (Finset.mem_insert_self n M)
        omega
      obtain ⟨⟨marked2, s2⟩, D, hrun, hvisit, hstate2⟩ :=
        auxList_spec ih (hgraph n) hcard hstate1
      have hnL : n ∉ L ++ D := by
        rw [List.mem_append]
        rintro (hl | hD)
        · exact hM (hstate.left n hl)
        · exact hvisit.not_mem hD (Finset.mem_insert_self n M)
      have hnM : n ∈ insert n M ∪ D.toFinset :=
        Finset.mem_union_left _ (Finset.mem_insert_self n M)
      obtain ⟨s3, hleave, hs3⟩ := hI.leave n _ _ s2 hn hnM hnL hstate2.collected
      have hset : M ∪ (D ++ [n]).toFinset = insert n M ∪ D.toFinset := by
        ext m
        simp only [Finset.mem_union, Finset.mem_insert, List.mem_toFinset, List.mem_append,
          List.mem_singleton]
        tauto
      refine ⟨(marked2, s3), D ++ [n], ?_, .step hM hvisit .nil, ?_⟩
      · simp [aux, hread, hM, hwrite, henter, read_next hn, hrun, hleave, bind, Except.bind, pure,
          Except.pure]
      · rw [hset, ← List.append_assoc]
        refine ⟨hstate2.marks, fun l hl => ?_, hs3⟩
        rcases List.mem_append.1 hl with hl | hl
        · exact hstate2.left l hl
        · rw [List.mem_singleton.1 hl]; exact hnM

end Aux

/-! ## §2 The two passes -/

variable {graph : Graph}

/-- The stack of the nodes that are left. -/
structure Stacked (size : ℕ) (L : List ℕ) (s : List (Option ℕ) × ℕ) : Prop where
  nodup : L.Nodup
  lt : ∀ l ∈ L, l < size
  pos : s.2 = L.length
  stack : s.1 = L.map some ++ replicate (size - L.length) none

theorem length_le_of_lt {L : List ℕ} (hnodup : L.Nodup) (hlt : ∀ l ∈ L, l < size) :
    L.length ≤ size := by
  have hsub : L.toFinset ⊆ Finset.range size := fun l hl =>
    Finset.mem_range.2 (hlt l (List.mem_toFinset.1 hl))
  have hcard := Finset.card_le_card hsub
  rwa [List.toFinset_card_of_nodup hnodup, Finset.card_range] at hcard

theorem push_collects (size : ℕ) :
    Collects size (fun _ s => pure s) push fun _ L s => Stacked size L s := by
  refine ⟨fun n M L s _ _ hs => ⟨s, rfl, hs⟩, fun n M L s hn _ hnL hs => ?_⟩
  obtain ⟨stack, pos⟩ := s
  obtain ⟨hnodup, hlt, hpos, hstack⟩ := hs
  dsimp only at hpos hstack
  have hnodup' : (L ++ [n]).Nodup := by
    rw [List.nodup_append]
    refine ⟨hnodup, List.nodup_singleton n, fun a ha b hb => ?_⟩
    rw [List.mem_singleton.1 hb]
    rintro rfl
    exact hnL ha
  have hlt' : ∀ l ∈ L ++ [n], l < size := by
    intro l hl
    rcases List.mem_append.1 hl with hl | hl
    · exact hlt l hl
    · rw [List.mem_singleton.1 hl]; exact hn
  have hlen := length_le_of_lt hnodup' hlt'
  rw [List.length_append, List.length_singleton] at hlen
  have hlength : stack.length = size := by
    rw [hstack]
    simp
    omega
  have hset : stack.set pos (some n) =
      (L ++ [n]).map some ++ replicate (size - (L ++ [n]).length) none := by
    obtain ⟨rest, hrest⟩ : ∃ rest, size - L.length = rest + 1 := ⟨size - L.length - 1, by omega⟩
    rw [hstack, hpos, hrest, List.replicate_succ]
    simp
    omega
  refine ⟨(stack.set pos (some n), pos + 1), ?_, hnodup', hlt', by simp [hpos], hset⟩
  have hwrite : write stack pos (some n) = .ok (stack.set pos (some n)) :=
    write_eq (by omega) _
  simp [push, hwrite, bind, Except.bind, pure, Except.pure]

/-- The first pass is a traversal of all nodes. -/
theorem depthFirstOrder_spec (hgraph : Inside graph) :
    ∃ D, depthFirstOrder graph = .ok (D.map some) ∧
      Visit (next graph) ∅ (List.range graph.length) D ∧ ∀ n, n ∈ D ↔ n < graph.length := by
  have hstart : Traversal graph.length (fun _ L s => Stacked graph.length L s) ∅ []
      (replicate graph.length false, replicate graph.length none, 0) :=
    ⟨marks_nil _, by simp, ⟨.nil, by simp, rfl, by simp⟩⟩
  obtain ⟨⟨marked, stack, pos⟩, D, hrun, hvisit, hstate⟩ :=
    auxList_spec (aux_spec hgraph (push_collects graph.length) (graph.length + 1))
      (fun n hn => List.mem_range.1 hn) (by simp) hstart
  have hmem : ∀ n, n ∈ D ↔ n < graph.length := by
    intro n
    constructor
    · exact fun hn => hstate.collected.lt n (by simpa using hn)
    · exact fun hn => (hvisit.mem_iff n).2 ⟨n, List.mem_range.2 hn, .refl (by simp)⟩
  have hlength : D.length = graph.length := by
    have hset : D.toFinset = Finset.range graph.length := by
      ext n
      rw [List.mem_toFinset, hmem, Finset.mem_range]
    rw [← List.toFinset_card_of_nodup hvisit.nodup, hset, Finset.card_range]
  refine ⟨D, ?_, hvisit, hmem⟩
  have hstack := hstate.collected.stack
  simp only [List.nil_append, hlength, Nat.sub_self, List.replicate_zero, List.append_nil] at hstack
  unfold depthFirstOrder
  simp only [hrun, bind]
  rw [hstack]
  rfl

theorem next_set (hn : n < graph.length) (ds : List ℕ) (m : ℕ) :
    next (graph.set n ds) m = if m = n then ds else next graph m :=
  getD_set hn ds m

/-- One node is added to the predecessors of its successors. -/
theorem transpose_node (src : ℕ) {dsts : List ℕ} (hdsts : ∀ d ∈ dsts, d < size)
    {t : Graph} (ht : t.length = size) :
    ∃ t', dsts.foldlM (fun t dst => do
        write t dst (src :: (← read t dst))) t = .ok t' ∧ t'.length = size ∧
      ∀ m n, m ∈ next t' n ↔ m ∈ next t n ∨ m = src ∧ n ∈ dsts := by
  let I : List ℕ → Graph → Prop := fun done t' => t'.length = size ∧
    ∀ m n, m ∈ next t' n ↔ m ∈ next t n ∨ m = src ∧ n ∈ done
  refine foldlM_ok (I := I) ⟨ht, by simp⟩ fun done dst rest t' hl ⟨hlen, hmem⟩ => ?_
  have hdst : dst < t'.length := by
    rw [hlen]
    exact hdsts dst (by simp [hl])
  refine ⟨t'.set dst (src :: next t' dst), ?_, by simpa using hlen, fun m n => ?_⟩
  · simp only [read_next hdst,  hdst, bind]; exact write_eq hdst _
  · rw [next_set hdst]
    split_ifs with heq
    · subst heq
      simp [hmem]
      tauto
    · simp [hmem, heq]

/-- The transposed graph has the edges turned around. -/
theorem transpose_spec (hgraph : Inside graph) :
    ∃ graph', transpose graph = .ok graph' ∧ graph'.length = graph.length ∧
      ∀ m n, m ∈ next graph' n ↔ n ∈ next graph m := by
  let I : List (List ℕ × ℕ) → Graph → Prop := fun done t => t.length = graph.length ∧
    ∀ m n, m ∈ next t n ↔ ∃ dsts, (dsts, m) ∈ done ∧ n ∈ dsts
  have hloop : ∃ t, transpose graph = .ok t ∧ I graph.zipIdx t := by
    refine foldlM_ok (I := I) ⟨by simp, fun m n => ?_⟩ fun done entry rest t hl ⟨hlen, hmem⟩ => ?_
    · by_cases hn : n < graph.length <;> simp [next, hn]
    · obtain ⟨dsts, src⟩ := entry
      have hentry : graph[src]? = some dsts := by
        rw [← List.mk_mem_zipIdx_iff_getElem?, hl]
        simp
      have hnext : next graph src = dsts := by simp [next, hentry]
      obtain ⟨t', hrun, hlen', hmem'⟩ := transpose_node src (hnext ▸ hgraph src) hlen
      refine ⟨t', hrun, hlen', fun m n => ?_⟩
      rw [hmem', hmem]
      simp only [List.mem_append, List.mem_singleton, Prod.mk.injEq]
      constructor
      · rintro (⟨ds, hds, hn⟩ | ⟨rfl, hn⟩)
        · exact ⟨ds, .inl hds, hn⟩
        · exact ⟨dsts, .inr ⟨rfl, rfl⟩, hn⟩
      · rintro ⟨ds, hds | ⟨rfl, rfl⟩, hn⟩
        · exact .inl ⟨ds, hds, hn⟩
        · exact .inr ⟨rfl, hn⟩
  obtain ⟨t, hrun, hlen, hmem⟩ := hloop
  refine ⟨t, hrun, hlen, fun m n => ?_⟩
  rw [hmem]
  constructor
  · rintro ⟨dsts, hentry, hn⟩
    rw [List.mk_mem_zipIdx_iff_getElem?] at hentry
    simpa [next, hentry] using hn
  · intro hn
    have hm := lt_of_mem_next hn
    refine ⟨graph[m], ?_, ?_⟩
    · rw [List.mk_mem_zipIdx_iff_getElem?]; exact getElem?_eq_getElem hm
    · simpa [next, hm] using hn

/-- Numbers of the components of some nodes, in the order of the edges. -/
structure Numbers (graph : Graph) (M : Finset ℕ) (f : ℕ → ℕ) (count : ℕ) : Prop where
  lt : ∀ n ∈ M, f n < count
  onto : ∀ c < count, ∃ n ∈ M, f n = c
  eq_iff : ∀ u ∈ M, ∀ v ∈ M, f u = f v ↔ Mutual (next graph) u v
  edge : ∀ u ∈ M, ∀ v ∈ M, v ∈ next graph u → f u ≤ f v

/-- A state of the second pass: the marked nodes are full components, with their predecessors. -/
structure Second (graph : Graph) (M : Finset ℕ) (f : ℕ → ℕ)
    (state : (List Bool × List (Option ℕ)) × ℕ) : Prop where
  marks : Marks graph.length state.1.1 M
  node : ∀ n ∈ M, n < graph.length
  length : state.1.2.length = graph.length
  id : ∀ n ∈ M, state.1.2[n]? = some (some (f n))
  numbers : Numbers graph M f state.2
  full : ∀ u ∈ M, ∀ v, Mutual (next graph) u v → v ∈ M
  pred : ∀ v ∈ M, ∀ u, v ∈ next graph u → u ∈ M

theorem second_nil (graph : Graph) :
    Second graph ∅ id ((replicate graph.length false, replicate graph.length none), 0) :=
  ⟨marks_nil _, by simp, by simp, by simp, ⟨by simp, by simp, by simp, by simp⟩, by simp, by simp⟩

/-- The numbers that a root gives to the nodes that it marks. -/
def Given (size count : ℕ) (M0 : Finset ℕ) (id0 : List (Option ℕ)) (M : Finset ℕ)
    (id : List (Option ℕ)) : Prop :=
  id.length = size ∧ ∀ n < size, id[n]? = if n ∈ M ∧ n ∉ M0 then some (some count) else id0[n]?

theorem given_collects (size count : ℕ) (M0 : Finset ℕ) (id0 : List (Option ℕ)) :
    Collects size (fun node id => write id node (some count)) (fun _ id => pure id)
      fun M _ id => M0 ⊆ M ∧ Given size count M0 id0 M id := by
  refine ⟨fun n M L id hn hnM hid => ?_, fun n M L id _ _ _ hid => ⟨id, rfl, hid⟩⟩
  obtain ⟨hsub, hlen, hid⟩ := hid
  have hn0 : n ∉ M0 := fun hn0 => hnM (hsub hn0)
  refine ⟨id.set n (some count), write_eq (by omega) _, hsub.trans (Finset.subset_insert n M),
    by simpa using hlen, fun m hm => ?_⟩
  rcases eq_or_ne m n with rfl | hne
  · rw [List.getElem?_set_self (by omega), if_pos ⟨Finset.mem_insert_self m M, hn0⟩]
  · rw [List.getElem?_set_ne (Ne.symm hne), hid m hm]; simp [hne]

/-- The nodes that a root adds are its component. -/
theorem Second.add {M : Finset ℕ} {f : ℕ → ℕ} {state : (List Bool × List (Option ℕ)) × ℕ}
    (h : Second graph M f state) {r : ℕ} {C : Finset ℕ} (hr : r < graph.length)
    (hC : ∀ u, u ∈ C ↔ Avoids (next graph) M u r)
    (hmutual : ∀ u < graph.length, Avoids (next graph) M u r ↔ Mutual (next graph) u r)
    (hinside : ∀ u ∈ C, u < graph.length) {marked : List Bool} {id : List (Option ℕ)}
    (hmarks : Marks graph.length marked (M ∪ C))
    (hid : Given graph.length state.2 M state.1.2 (M ∪ C) id) :
    Second graph (M ∪ C) (fun n => if n ∈ M then f n else state.2) ((marked, id), state.2 + 1) := by
  have hdisj : ∀ u ∈ C, u ∉ M := fun u hu => ((hC u).1 hu).start
  have hroot : ∀ u ∈ C, Mutual (next graph) u r := fun u hu =>
    (hmutual u (hinside u hu)).1 ((hC u).1 hu)
  have hrC : r ∈ C := by
    rw [hC, hmutual r hr]
    exact .refl r
  have hnode : ∀ n ∈ M ∪ C, n < graph.length := by
    intro n hn
    rcases Finset.mem_union.1 hn with hn | hn
    · exact h.node n hn
    · exact hinside n hn
  refine ⟨hmarks, hnode, hid.1, fun n hn => ?_, ⟨fun n hn => ?_, fun c hc => ?_,
    fun u hu v hv => ?_, fun u hu v hv huv => ?_⟩, fun u hu v huv => ?_, fun v hv u huv => ?_⟩
  · rw [hid.2 n (hnode n hn)]
    by_cases hnM : n ∈ M
    · rw [if_neg (fun hnew => hnew.2 hnM), if_pos hnM]; exact h.id n hnM
    · rw [if_pos ⟨hn, hnM⟩, if_neg hnM]
  · split_ifs with hnM
    · have := h.numbers.lt n hnM; omega
    · omega
  · rcases Nat.lt_succ_iff_lt_or_eq.1 hc with hlt | rfl
    · obtain ⟨n, hn, hf⟩ := h.numbers.onto c hlt
      exact ⟨n, Finset.mem_union_left _ hn, by simp [hn, hf]⟩
    · exact ⟨r, Finset.mem_union_right _ hrC, by simp [hdisj r hrC]⟩
  · by_cases huM : u ∈ M <;> by_cases hvM : v ∈ M
    · simpa [huM, hvM] using h.numbers.eq_iff u huM v hvM
    · have hlt := h.numbers.lt u huM
      have hne : f u ≠ state.2 := by omega
      simp only [huM, hvM, if_true, if_false, hne, false_iff]
      exact fun huv => hvM (h.full u huM v huv)
    · have hlt := h.numbers.lt v hvM
      have hne : state.2 ≠ f v := by omega
      simp only [huM, hvM, if_true, if_false, hne, false_iff]
      exact fun huv => huM (h.full v hvM u huv.symm)
    · have huC := (Finset.mem_union.1 hu).resolve_left huM
      have hvC := (Finset.mem_union.1 hv).resolve_left hvM
      simp only [huM, hvM, if_false, true_iff]
      exact (hroot u huC).trans (hroot v hvC).symm
  · by_cases hvM : v ∈ M
    · -- all predecessors of a marked node were marked before
      have huM := h.pred v hvM u huv
      simpa [huM, hvM] using h.numbers.edge u huM v hvM huv
    · split_ifs with huM
      · exact (h.numbers.lt u huM).le
      · exact le_rfl
  · rcases Finset.mem_union.1 hu with hu | hu
    · exact Finset.mem_union_left _ (h.full u hu v huv)
    · refine Finset.mem_union_right _ ?_
      have hvr := huv.symm.trans (hroot u hu)
      have hv : v < graph.length := by
        cases hvr.1 with
        | refl _ => exact hr
        | head _ hy _ => exact lt_of_mem_next hy
      rw [hC, hmutual v hv]
      exact hvr
  · rcases Finset.mem_union.1 hv with hv | hv
    · exact Finset.mem_union_left _ (h.pred v hv u huv)
    · by_cases huM : u ∈ M
      · exact Finset.mem_union_left _ huM
      · refine Finset.mem_union_right _ ((hC u).2 ?_); exact .head huM huv ((hC v).1 hv)

/-- The second pass numbers the components in the order of the edges. -/
theorem mark_spec (hgraph : Inside graph) {D : List ℕ}
    (hvisit : Visit (next graph) ∅ (List.range graph.length) D)
    (hD : ∀ n, n ∈ D ↔ n < graph.length) :
    ∃ id count f, mark (D.map some) graph = .ok (id, count) ∧
      id = (List.range graph.length).map (fun n => some (f n)) ∧
      Numbers graph (Finset.range graph.length) f count := by
  obtain ⟨graph', htranspose, hlen', hflip⟩ := transpose_spec hgraph
  have hinside' : Inside graph' := by
    intro n d hd
    rw [hflip] at hd
    rw [hlen']
    exact lt_of_mem_next hd
  have hDlen : D.length = graph.length := by
    have hset : D.toFinset = Finset.range graph.length := by
      ext n
      rw [List.mem_toFinset, hD, Finset.mem_range]
    rw [← List.toFinset_card_of_nodup hvisit.nodup, hset, Finset.card_range]
  let I : List ℕ → (List Bool × List (Option ℕ)) × ℕ → Prop := fun done state =>
    ∃ M f, Second graph M f state ∧ ∀ i ∈ done, ∀ n, D[i]? = some n → n ∈ M
  have hloop : ∃ state, (List.range graph.length).reverse.foldlM (markStep graph' (D.map some))
      ((replicate graph.length false, replicate graph.length none), 0) = .ok state ∧
      I (List.range graph.length).reverse state := by
    refine foldlM_ok (I := I) ⟨∅, id, second_nil graph, by simp⟩ ?_
    rintro done i rest ⟨⟨marked, id⟩, count⟩ hl ⟨M, f, hM, hdone⟩
    have hi : i < graph.length := by
      have hmem : i ∈ (List.range graph.length).reverse := by simp [hl]
      simpa using hmem
    have hDi : D[i]? = some D[i] := getElem?_eq_getElem (by lia)
    have hr : D[i] < graph.length := (hD _).1 (List.getElem_mem _)
    have horder : read (D.map some) i = .ok (some D[i]) := read_eq (by simp [hi])
    have hmarked : read marked D[i] = .ok (decide (D[i] ∈ M)) := read_eq (hM.marks.get _ hr)
    by_cases hmem : D[i] ∈ M
    · refine ⟨((marked, id), count), ?_, M, f, hM, fun j hj n hn => ?_⟩
      · simp [markStep, horder, index, hmarked, hmem, bind, Except.bind, pure, Except.pure]
      · rcases List.mem_append.1 hj with hj | hj
        · exact hdone j hj n hn
        · rw [List.mem_singleton.1 hj, hDi] at hn
          injection hn with hn
          rwa [← hn]
    · -- the nodes that are left later are marked
      have hafter : ∀ w ∈ D, D.idxOf D[i] < D.idxOf w → w ∈ M := by
        intro w hw hlt
        rw [List.Nodup.idxOf_getElem hvisit.nodup] at hlt
        have hwlt : D.idxOf w < D.length := List.idxOf_lt_length_iff.2 hw
        have hwdone : D.idxOf w ∈ done := by
          have hwmem : D.idxOf w ∈ (List.range graph.length).reverse := by
            simp
            lia
          rw [hl] at hwmem
          rcases List.mem_append.1 hwmem with hw | hw
          · exact hw
          · have hsorted : (List.range graph.length).reverse.Pairwise (· > ·) := by
              rw [List.pairwise_reverse]
              exact List.pairwise_lt_range
            rw [hl, List.pairwise_append, List.pairwise_cons] at hsorted
            rcases mem_cons.1 hw with hw | hw
            · lia
            · have := hsorted.2.1.1 _ hw; lia
        exact hdone _ hwdone w (by simp [getElem?_eq_getElem hwlt])
      have hstate : Traversal graph'.length
          (fun M' _ id' => M ⊆ M' ∧ Given graph'.length count M id M' id') M [] (marked, id) := by
        rw [hlen']
        refine ⟨hM.marks, by simp, Finset.Subset.refl M, hM.length, fun n hn => ?_⟩
        rw [if_neg (fun h => h.2 h.1)]
      obtain ⟨⟨marked', id'⟩, C, hrun, hvisitC, hstate'⟩ :=
        aux_spec hinside' (given_collects graph'.length count M id) (graph'.length + 1) D[i] M []
          (marked, id) (by lia) (lt_of_le_of_lt (Finset.card_le_card Finset.sdiff_subset)
            (by simp)) hstate
      have hC : ∀ u, u ∈ C.toFinset ↔ Avoids (next graph) M u D[i] := by
        intro u
        rw [List.mem_toFinset, hvisitC.mem_iff]
        constructor
        · rintro ⟨x, hx, hxu⟩
          rw [List.mem_singleton.1 hx] at hxu
          exact hxu.flip fun m n => (hflip n m).symm
        · exact fun hu => ⟨D[i], by simp, hu.flip fun m n => hflip m n⟩
      have hmutual : ∀ u < graph.length,
          Avoids (next graph) M u D[i] ↔ Mutual (next graph) u D[i] := fun u hu =>
        Lib.avoids_root_iff hvisit.lastReaches hM.full hmem hafter ((hD u).2 hu)
          (List.getElem_mem _)
      have hCinside : ∀ u ∈ C.toFinset, u < graph.length := by
        intro u hu
        cases (hC u).1 hu with
        | refl _ => exact hr
        | head _ hy _ => exact lt_of_mem_next hy
      have hadd := hM.add hr hC hmutual hCinside (hlen' ▸ hstate'.marks)
        (hlen' ▸ hstate'.collected.2)
      refine ⟨((marked', id'), count + 1), ?_, _, _, hadd, fun j hj n hn => ?_⟩
      · have hindex : index (some D[i]) = .ok D[i] := rfl
        simp only [markStep, horder, hindex, hmarked, hmem, hrun, bind, Except.bind]
        rfl
      · rcases List.mem_append.1 hj with hj | hj
        · exact Finset.mem_union_left _ (hdone j hj n hn)
        · rw [List.mem_singleton.1 hj, hDi] at hn
          injection hn with hn
          rw [← hn]
          refine Finset.mem_union_right _ ((hC _).2 ?_)
          exact .refl hmem
  obtain ⟨⟨⟨marked, id⟩, count⟩, hrun, M, f, hM, hdone⟩ := hloop
  have hall : M = Finset.range graph.length := by
    ext n
    rw [Finset.mem_range]
    refine ⟨hM.node n, fun hn => ?_⟩
    have hnD := (hD n).2 hn
    have hlt : D.idxOf n < D.length := List.idxOf_lt_length_iff.2 hnD
    exact hdone (D.idxOf n) (by simp; lia) n (by simp [getElem?_eq_getElem hlt])
  refine ⟨id, count, f, ?_, ?_, hall ▸ hM.numbers⟩
  · unfold mark
    simp only [htranspose, bind, Except.bind, hrun]
    rfl
  · have hlen := hM.length
    dsimp only at hlen
    refine List.ext_getElem? fun n => ?_
    by_cases hn : n < graph.length
    · have hid := hM.id n (by rw [hall]; exact Finset.mem_range.2 hn)
      rw [hid]
      simp [hn]
    · rw [List.getElem?_eq_none (by lia), List.getElem?_eq_none (by simp; lia)]

/-! ## §3 The components of the numbers -/

/-- The components by their numbers, and the numbers that one edge leads to. -/
structure IntSpec (graph : Graph) (f : ℕ → ℕ) (count : ℕ) (r : IntComponents) : Prop where
  numbers : Numbers graph (Finset.range graph.length) f count
  length : r.sortedConnectedComponents.length = count
  length_edges : r.componentEdges.length = count
  nodup : ∀ c, (r.sortedConnectedComponents.getD c []).Nodup
  mem : ∀ c n, n ∈ r.sortedConnectedComponents.getD c [] ↔ n < graph.length ∧ f n = c
  edges : ∀ c d, d ∈ r.componentEdges.getD c [] ↔ ∃ n v, f n = c ∧ v ∈ next graph n ∧ f v = d
  sorted : ∀ c, (r.componentEdges.getD c []).Pairwise (· < ·)

variable {f : ℕ → ℕ}

theorem addComponentDep_spec (hgraph : Inside graph) (hn : n < graph.length) (set : Finset ℕ) :
    ∃ set', addComponentDep graph ((List.range graph.length).map fun n => some (f n)) n set =
        .ok set' ∧ ∀ d, d ∈ set' ↔ d ∈ set ∨ ∃ v ∈ next graph n, f v = d := by
  unfold addComponentDep
  simp only [read_next hn, bind]
  let I : List ℕ → Finset ℕ → Prop := fun done set' =>
    ∀ d, d ∈ set' ↔ d ∈ set ∨ ∃ v ∈ done, f v = d
  refine foldlM_ok (I := I) (by simp [I]) fun done v rest set' hl hset' => ?_
  have hv : v < graph.length := hgraph n v (by simp [hl])
  have hread : read ((List.range graph.length).map fun n => some (f n)) v = .ok (some (f v)) :=
    read_eq (by simp [hv])
  refine ⟨insert (f v) set', ?_, fun d => ?_⟩
  · simp only [hread]; rfl
  · rw [Finset.mem_insert, hset' d]
    simp only [List.mem_append, List.mem_singleton]
    constructor
    · rintro (rfl | hd | ⟨w, hw, rfl⟩)
      · exact .inr ⟨v, .inr rfl, rfl⟩
      · exact .inl hd
      · exact .inr ⟨w, .inl hw, rfl⟩
    · rintro (hd | ⟨w, hw | rfl, rfl⟩)
      · exact .inr (.inl hd)
      · exact .inr (.inr ⟨w, hw, rfl⟩)
      · exact .inl rfl

/-- The state of the loop of `component_graph`, by the nodes that are done. -/
structure Filled (graph : Graph) (f : ℕ → ℕ) (count : ℕ) (done : List (Option ℕ × ℕ))
    (state : List (List ℕ) × List (Finset ℕ)) : Prop where
  length : state.1.length = count
  length_edges : state.2.length = count
  nodup : ∀ c, (state.1.getD c []).Nodup
  mem : ∀ c n, n ∈ state.1.getD c [] ↔ (some c, n) ∈ done
  edges : ∀ c d, d ∈ state.2.getD c ∅ ↔ ∃ n v, (some c, n) ∈ done ∧ v ∈ next graph n ∧ f v = d

theorem intComponentGraph_spec (hgraph : Inside graph) :
    ∃ r f count, intComponentGraph graph = .ok r ∧ IntSpec graph f count r := by
  obtain ⟨D, hfirst, hvisit, hD⟩ := depthFirstOrder_spec hgraph
  obtain ⟨ids, count, f, hsecond, rfl, hnumbers⟩ := mark_spec hgraph hvisit hD
  have hentry : ∀ c n, (some c, n) ∈ ((List.range graph.length).map fun n => some (f n)).zipIdx ↔
      n < graph.length ∧ f n = c := by
    intro c n
    rw [List.mk_mem_zipIdx_iff_getElem?]
    by_cases hn : n < graph.length <;> simp [hn]
  have hloop : ∃ state, ((List.range graph.length).map fun n => some (f n)).zipIdx.foldlM
      (componentStep graph ((List.range graph.length).map fun n => some (f n)))
      (replicate count [], replicate count ∅) = .ok state ∧
      Filled graph f count ((List.range graph.length).map fun n => some (f n)).zipIdx state := by
    refine foldlM_ok ⟨by simp, by simp, fun c => ?_, fun c n => ?_, fun c d => ?_⟩ ?_
    · by_cases hc : c < count <;> simp [hc]
    · by_cases hc : c < count <;> simp [hc]
    · by_cases hc : c < count <;> simp [hc]
    · rintro done ⟨entry, n⟩ rest ⟨scc, sets⟩ hl hstate
      have hn : n < graph.length ∧ entry = some (f n) := by
        have hmem : (entry, n) ∈ ((List.range graph.length).map fun n => some (f n)).zipIdx := by
          simp [hl]
        rw [List.mk_mem_zipIdx_iff_getElem?] at hmem
        obtain ⟨hlt, heq⟩ := List.getElem?_eq_some_iff.1 hmem
        simp only [List.length_map, List.length_range] at hlt
        exact ⟨hlt, by simpa using heq.symm⟩
      obtain ⟨hn, rfl⟩ := hn
      have hfn : f n < count := hnumbers.lt n (Finset.mem_range.2 hn)
      have hlen := hstate.length
      have hlen' := hstate.length_edges
      dsimp only at hlen hlen'
      have hnew : n ∉ scc.getD (f n) [] := by
        intro hmem
        have hdone := (hstate.mem (f n) n).1 hmem
        have hnodup : (((List.range graph.length).map fun n => some (f n)).zipIdx).Nodup := by
          refine List.Nodup.of_map Prod.snd ?_
          rw [List.zipIdx_map_snd]
          exact List.nodup_range'
        rw [hl, List.nodup_append] at hnodup
        exact hnodup.2.2 _ hdone _ List.mem_cons_self rfl
      obtain ⟨set', hadd, hset'⟩ := addComponentDep_spec hgraph (f := f) hn (sets.getD (f n) ∅)
      refine ⟨(scc.set (f n) (n :: scc.getD (f n) []), sets.set (f n) set'), ?_, ?_⟩
      · have hread : read scc (f n) = .ok (scc.getD (f n) []) := read_getD (by omega)
        have hread' : read sets (f n) = .ok (sets.getD (f n) ∅) := read_getD (by omega)
        have hwrite : write scc (f n) (n :: scc.getD (f n) []) =
            .ok (scc.set (f n) (n :: scc.getD (f n) [])) := write_eq (by omega) _
        have hwrite' : write sets (f n) set' = .ok (sets.set (f n) set') := write_eq (by omega) _
        have hindex : index (some (f n)) = .ok (f n) := rfl
        simp only [componentStep, hindex, hread, hread', hwrite, hwrite', hadd, bind, Except.bind]
        rfl
      · refine ⟨by simpa using hlen, by simpa using hlen', fun c => ?_, fun c m => ?_,
          fun c d => ?_⟩
        · rw [getD_set (by omega)]
          split_ifs
          · exact List.nodup_cons.2 ⟨hnew, hstate.nodup (f n)⟩
          · exact hstate.nodup c
        · rw [getD_set (by omega)]
          have hmem := hstate.mem c m
          split_ifs with hc
          · subst hc
            simp only [mem_cons, List.mem_append, Prod.mk.injEq, List.not_mem_nil]
            tauto
          · simp only [List.mem_append, List.mem_singleton, Prod.mk.injEq, Option.some.injEq]
            tauto
        · rw [getD_set (by omega)]
          have hedges := hstate.edges c d
          split_ifs with hc
          · subst hc
            rw [hset', hedges]
            simp only [List.mem_append, List.mem_singleton, Prod.mk.injEq, true_and]
            constructor
            · rintro (⟨m, v, hm, hv⟩ | ⟨v, hv⟩)
              · exact ⟨m, v, .inl hm, hv⟩
              · exact ⟨n, v, .inr rfl, hv⟩
            · rintro ⟨m, v, hm | rfl, hv⟩
              · exact .inl ⟨m, v, hm, hv⟩
              · exact .inr ⟨v, hv⟩
          · rw [hedges]
            simp [hc]
  obtain ⟨⟨scc, sets⟩, hrun, hstate⟩ := hloop
  refine ⟨⟨scc, sets.map fun set => set.sort (· ≤ ·)⟩, f, count, ?_, hnumbers, hstate.length,
    by simpa using hstate.length_edges, hstate.nodup, fun c n => ?_, fun c d => ?_, fun c => ?_⟩
  · unfold intComponentGraph kosaraju
    simp only [hfirst, hsecond, hrun, bind, Except.bind, pure, Except.pure]
  · rw [hstate.mem, hentry]
  · have hedges := hstate.edges c d
    have hgetD : (sets.map fun set => set.sort (· ≤ ·)).getD c [] =
        (sets.getD c ∅).sort (· ≤ ·) := by
      cases h : sets[c]? <;> simp [h]
    rw [hgetD, Finset.mem_sort, hedges]
    constructor
    · rintro ⟨n, v, hn, hv⟩; exact ⟨n, v, ((hentry c n).1 hn).2, hv⟩
    · rintro ⟨n, v, hn, hv⟩; exact ⟨n, v, (hentry c n).2 ⟨lt_of_mem_next hv.1, hn⟩, hv⟩
  · cases h : sets[c]? with
    | none => simp [h]
    | some set => simpa [h] using (Finset.sortedLT_sort set).pairwise

/-! ## §4 Identifiers -/

section Make

variable {Id : Type} {bindings : DirectedGraph Id}

def Edge (bindings : DirectedGraph Id) (u v : Id) : Prop :=
  ∃ dests, (u, dests) ∈ bindings ∧ v ∈ dests

/-- A path of edges. -/
def Reaches (bindings : DirectedGraph Id) : Id → Id → Prop :=
  Relation.ReflTransGen (Edge bindings)

/-- Every node has one binding, and the edges stay inside the nodes. -/
structure WellFormed (bindings : DirectedGraph Id) : Prop where
  nodup : (bindings.map Prod.fst).Nodup
  inside : ∀ u v, Edge bindings u v → v ∈ bindings.map Prod.fst

def Component.ids : Component Id → List Id
  | .hasLoop ids => ids
  | .noLoop id => [id]

/-- The strongly connected components, from the roots to the leaves, with their edges. -/
structure IsComponents (bindings : DirectedGraph Id) (comps : List (Component Id × List ℕ)) :
    Prop where
  once : (comps.flatMap fun c => c.1.ids).Perm (bindings.map Prod.fst)
  strong : ∀ c ∈ comps, ∀ u ∈ c.1.ids, ∀ v, v ∈ c.1.ids ↔
    Reaches bindings u v ∧ Reaches bindings v u
  noLoop : ∀ c ∈ comps, ∀ u, c.1 = .noLoop u ↔ c.1.ids = [u] ∧ ¬Edge bindings u u
  ordered : ∀ (i j : ℕ) ci cj, comps[i]? = some ci → comps[j]? = some cj → i ≠ j →
    ∀ u ∈ ci.1.ids, ∀ v ∈ cj.1.ids, Edge bindings u v → i < j
  edges : ∀ (i : ℕ) ci, comps[i]? = some ci → ∀ j, j ∈ ci.2 ↔
    ∃ cj, comps[j]? = some cj ∧ ∃ u ∈ ci.1.ids, ∃ v ∈ cj.1.ids, Edge bindings u v
  sorted : ∀ c ∈ comps, c.2.Pairwise (· < ·)

variable [DecidableEq Id]

variable {forth : List Id}

omit [DecidableEq Id] in
theorem mem_backOf {p : Id × ℕ} : p ∈ backOf forth ↔ forth[p.2]? = some p.1 := by
  have hfold : ∀ (l back : List (Id × ℕ)),
      p ∈ l.foldl (fun back binding => binding :: back) back ↔ p ∈ l ∨ p ∈ back := by
    intro l
    induction l with
    | nil => simp
    | cons q l ih =>
      intro back
      rw [List.foldl_cons, ih]
      simp only [mem_cons]
      tauto
  unfold backOf
  rw [hfold, List.mem_zipIdx_iff_getElem?]
  simp

variable {v u : Id}

theorem backOf_lookup (hnodup : forth.Nodup) {i : ℕ}
    (h : forth[i]? = some v) : (backOf forth).lookup v = some i := by
  have hmem : (v, i) ∈ backOf forth := mem_backOf.2 h
  cases hlookup : (backOf forth).lookup v with
  | none => have hnone := List.lookup_eq_none_iff.1 hlookup (v, i) hmem; simp at hnone
  | some j =>
    obtain ⟨l1, l2, hl, -⟩ := List.lookup_eq_some_iff.1 hlookup
    have hj : (v, j) ∈ backOf forth := by simp [hl]
    have hj' : forth[j]? = some v := mem_backOf.1 hj
    obtain ⟨hi, hiv⟩ := List.getElem?_eq_some_iff.1 h
    obtain ⟨hj, hjv⟩ := List.getElem?_eq_some_iff.1 hj'
    rw [(List.Nodup.getElem_inj_iff hnodup).1 (hjv.trans hiv.symm)]

theorem integerDests_spec (h : WellFormed bindings) (stable : Bool) {b : Id × List Id}
    (hb : b ∈ bindings) :
    ∃ ds, integerDests stable (backOf (bindings.map Prod.fst)) b.2 = .ok ds ∧
      ∀ n, n ∈ ds ↔ ∃ v ∈ b.2, (bindings.map Prod.fst)[n]? = some v := by
  obtain ⟨u, dests⟩ := b
  let I : List Id → List ℕ → Prop := fun done ds =>
    ∀ n, n ∈ ds ↔ ∃ v ∈ done, (bindings.map Prod.fst)[n]? = some v
  have hloop : ∃ ds, dests.foldlM (addDest (backOf (bindings.map Prod.fst))) [] = .ok ds ∧
      I dests ds := by
    refine foldlM_ok (I := I) (by simp [I]) fun done v rest ds hl hds => ?_
    have hv := h.inside u v ⟨dests, hb, by simp [hl]⟩
    obtain ⟨i, hi⟩ := mem_iff_getElem?.1 hv
    refine ⟨i :: ds, ?_, fun n => ?_⟩
    · unfold addDest
      rw [backOf_lookup h.nodup hi]
      rfl
    · simp only [mem_cons, hds n, List.mem_append, List.not_mem_nil, or_false]
      constructor
      · rintro (rfl | ⟨w, hw, hn⟩)
        · exact ⟨v, .inr rfl, hi⟩
        · exact ⟨w, .inl hw, hn⟩
      · rintro ⟨w, hw | rfl, hn⟩
        · exact .inr ⟨w, hw, hn⟩
        · obtain ⟨hi', hiv⟩ := List.getElem?_eq_some_iff.1 hi
          obtain ⟨hn', hnv⟩ := List.getElem?_eq_some_iff.1 hn
          exact .inl ((List.Nodup.getElem_inj_iff h.nodup).1 (hnv.trans hiv.symm))
  obtain ⟨ds, hds, hmem⟩ := hloop
  refine ⟨if stable then ds.mergeSort (fun a b => a ≤ b) else ds, ?_, fun n => ?_⟩
  · unfold integerDests
    simp only [hds, bind]
    rfl
  · rw [← hmem n]
    split_ifs
    · exact List.mem_mergeSort
    · exact Iff.rfl

/-- The graph of the positions of the nodes. -/
theorem number_spec (h : WellFormed bindings) (stable : Bool) :
    ∃ graph, number stable bindings = .ok (bindings.map Prod.fst, graph) ∧
      graph.length = bindings.length ∧ ∀ m n, n ∈ next graph m ↔
        ∃ u v, (bindings.map Prod.fst)[m]? = some u ∧ (bindings.map Prod.fst)[n]? = some v ∧
          Edge bindings u v := by
  obtain ⟨graph, hrun, hall⟩ := mapM_ok fun b hb => integerDests_spec h stable (b := b) hb
  refine ⟨graph, ?_, hall.length_eq.symm, fun m n => ?_⟩
  · unfold number
    simp only [hrun, bind]
    rfl
  · by_cases hm : m < bindings.length
    · have hm' : m < graph.length := by rw [← hall.length_eq]; exact hm
      have hrow := hall.get hm hm' n
      have hnext : next graph m = graph[m] := by simp [next, hm']
      have hu : (bindings.map Prod.fst)[m]? = some bindings[m].1 := by simp [hm]
      rw [hnext, hu]
      simp only [List.get_eq_getElem] at hrow
      rw [hrow]
      constructor
      · rintro ⟨v, hv, hn⟩; exact ⟨_, v, rfl, hn, _, List.getElem_mem hm, hv⟩
      · rintro ⟨u, v, hu', hn, dests, hdests, hv⟩
        injection hu' with hu'
        obtain ⟨k, hk⟩ := mem_iff_getElem?.1 hdests
        obtain ⟨hk', hkeq⟩ := List.getElem?_eq_some_iff.1 hk
        have hkm : k = m := by
          have hkmap : k < (bindings.map Prod.fst).length := by simpa using hk'
          have hmmap : m < (bindings.map Prod.fst).length := by simpa using hm
          have hfst : (bindings.map Prod.fst)[k] = (bindings.map Prod.fst)[m] := by simp [hkeq, hu']
          exact (List.Nodup.getElem_inj_iff h.nodup).1 hfst
        subst hkm
        rw [hkeq]
        exact ⟨v, hv, hn⟩
    · have hm' : ¬m < graph.length := by rw [← hall.length_eq]; exact hm
      have hnone : (bindings.map Prod.fst)[m]? = none := List.getElem?_eq_none (by simp; omega)
      rw [hnone]
      constructor
      · intro hn; exact absurd (lt_of_mem_next hn) hm'
      · rintro ⟨u, v, hu, -⟩; cases hu

/-- The graph of the positions. -/
structure Positions (bindings : DirectedGraph Id) (graph : Graph) : Prop where
  length : graph.length = bindings.length
  edge : ∀ m n, n ∈ next graph m ↔
    ∃ u v, (bindings.map Prod.fst)[m]? = some u ∧ (bindings.map Prod.fst)[n]? = some v ∧
      Edge bindings u v

namespace Positions

variable {graph : Graph}

omit [DecidableEq Id]

section

variable (h : Positions bindings graph)
include h

theorem inside : Inside graph := by
  intro n d hd
  obtain ⟨u, v, -, hv, -⟩ := (h.edge n d).1 hd
  obtain ⟨hlt, -⟩ := List.getElem?_eq_some_iff.1 hv
  rw [h.length]
  simpa using hlt

theorem edge_iff
    (hu : (bindings.map Prod.fst)[m]? = some u) (hv : (bindings.map Prod.fst)[n]? = some v) :
    n ∈ next graph m ↔ Edge bindings u v := by
  rw [h.edge]
  constructor
  · rintro ⟨u', v', hu', hv', he⟩
    rw [hu] at hu'
    rw [hv] at hv'
    injection hu' with hu'
    injection hv' with hv'
    rwa [hu', hv']
  · exact fun he => ⟨u, v, hu, hv, he⟩

theorem avoids_iff (hwf : WellFormed bindings)
    (hu : (bindings.map Prod.fst)[m]? = some u) (hv : (bindings.map Prod.fst)[n]? = some v) :
    Avoids (next graph) ∅ m n ↔ Reaches bindings u v := by
  constructor
  · intro hpath
    induction hpath generalizing u with
    | refl _ =>
      rw [hu] at hv
      injection hv with hv
      rw [hv]
      exact .refl
    | @head m k n _ hk _ ih =>
      obtain ⟨u', w, hu', hw, he⟩ := (h.edge m k).1 hk
      rw [hu] at hu'
      injection hu' with hu'
      rw [hu']
      exact .head he (ih hw hv)
  · intro hpath
    induction hpath using Relation.ReflTransGen.head_induction_on generalizing m with
    | refl =>
      obtain ⟨hm', hmu⟩ := List.getElem?_eq_some_iff.1 hu
      obtain ⟨hn', hnv⟩ := List.getElem?_eq_some_iff.1 hv
      rw [(List.Nodup.getElem_inj_iff hwf.nodup).1 (hmu.trans hnv.symm)]
      exact .refl (by simp)
    | head he _ ih =>
      obtain ⟨k, hk⟩ := mem_iff_getElem?.1 (hwf.inside _ _ he)
      exact .head (by simp) ((h.edge_iff hu hk).2 he) (ih hk)

end

end Positions

/-- The identifiers of the nodes of a component. -/
def Named (bindings : DirectedGraph Id) (nodes : List ℕ) (ids : List Id) : Prop :=
  List.Forall₂ (fun n u => (bindings.map Prod.fst)[n]? = some u) nodes ids

namespace Named

variable {nodes : List ℕ} {ids : List Id}

omit [DecidableEq Id]

theorem mem_iff (h : Named bindings nodes ids) :
    u ∈ ids ↔ ∃ n ∈ nodes, (bindings.map Prod.fst)[n]? = some u := by
  induction h with
  | nil => simp
  | @cons n v nodes ids hn _ ih =>
    rw [mem_cons, ih]
    constructor
    · rintro (rfl | ⟨m, hm, hu⟩)
      · exact ⟨n, List.mem_cons_self, hn⟩
      · exact ⟨m, List.mem_cons_of_mem _ hm, hu⟩
    · rintro ⟨m, hm, hu⟩
      rcases mem_cons.1 hm with rfl | hm
      · rw [hn] at hu
        injection hu with hu
        exact .inl hu.symm
      · exact .inr ⟨m, hm, hu⟩

theorem nodup (h : Named bindings nodes ids) (hwf : WellFormed bindings) (hnodes : nodes.Nodup) :
    ids.Nodup := by
  induction h with
  | nil => exact .nil
  | @cons n v nodes ids hn hrest ih =>
    rw [List.nodup_cons] at hnodes ⊢
    refine ⟨fun hv => ?_, ih hnodes.2⟩
    obtain ⟨m, hm, hmv⟩ := (mem_iff hrest).1 hv
    obtain ⟨hn', hnv⟩ := List.getElem?_eq_some_iff.1 hn
    obtain ⟨hm', hmv'⟩ := List.getElem?_eq_some_iff.1 hmv
    obtain rfl : m = n := (List.Nodup.getElem_inj_iff hwf.nodup).1 (hmv'.trans hnv.symm)
    exact hnodes.1 hm

end Named

/-- What is made of a component of numbers. -/
structure Renamed (bindings : DirectedGraph Id) (nodes : List ℕ) (edges : List ℕ)
    (c : Component Id × List ℕ) : Prop where
  named : Named bindings nodes c.1.ids
  edges : c.2 = edges
  noLoop : ∀ u, c.1 = .noLoop u ↔ c.1.ids = [u] ∧ ¬Edge bindings u u

omit [DecidableEq Id] in
theorem numberedComponent_spec (h : Positions bindings graph) {nodes : List ℕ} (hne : nodes ≠ [])
    (hnodes : ∀ n ∈ nodes, n < graph.length) {componentEdges : List (List ℕ)} {component : ℕ}
    (hcomponent : component < componentEdges.length) :
    ∃ c, numberedComponent (bindings.map Prod.fst) graph componentEdges (nodes, component) =
      .ok c ∧ Renamed bindings nodes (componentEdges.getD component []) c := by
  have hedges : read componentEdges component = .ok (componentEdges.getD component []) :=
    read_getD hcomponent
  have hname : ∀ n ∈ nodes, ∃ u, read (bindings.map Prod.fst) n = .ok u ∧
      (bindings.map Prod.fst)[n]? = some u := by
    intro n hn
    have hlt := hnodes n hn
    rw [h.length] at hlt
    exact ⟨bindings[n].1, read_eq (by simp [hlt]), by simp [hlt]⟩
  match nodes, hne, hnodes, hname with
  | [node], _, hnodes, hname =>
    obtain ⟨u, hread, hu⟩ := hname node (by simp)
    have hnext := read_next (hnodes node (by simp))
    have hloop := h.edge_iff hu hu
    by_cases hmem : node ∈ next graph node
    · refine ⟨(.hasLoop [u], componentEdges.getD component []), ?_, .cons hu .nil, rfl, ?_⟩
      · simp only [numberedComponent, hedges, hread, hnext, bind, Except.bind, hmem, if_true]
        rfl
      · intro v
        refine ⟨fun heq => (nomatch heq), fun ⟨hv, hnot⟩ => ?_⟩
        injection hv with hv
        subst hv
        exact absurd (hloop.1 hmem) hnot
    · refine ⟨(.noLoop u, componentEdges.getD component []), ?_, .cons hu .nil, rfl, ?_⟩
      · simp only [numberedComponent, hedges, hread, hnext, bind, Except.bind, hmem, if_false]
        rfl
      · intro v
        constructor
        · intro heq
          injection heq with heq
          subst heq
          exact ⟨rfl, fun he => hmem (hloop.2 he)⟩
        · rintro ⟨heq, -⟩
          injection heq with heq
          exact congrArg _ heq
  | n1 :: n2 :: rest, _, _, hname =>
    obtain ⟨ids, hids, hall⟩ := mapM_ok hname
    refine ⟨(.hasLoop ids, componentEdges.getD component []), ?_, hall, rfl, fun v => ?_⟩
    · simp only [numberedComponent, hedges, hids, bind, Except.bind]; rfl
    · refine ⟨fun heq => (nomatch heq), fun ⟨hv, _⟩ => ?_⟩
      have hlen := hall.length_eq
      have hids1 : ids = [v] := hv
      rw [hids1] at hlen
      simp at hlen

omit [DecidableEq Id] in
/-- The components of the positions are those of the identifiers. -/
theorem isComponents_of_renamed (hwf : WellFormed bindings)
    (h : Positions bindings graph) {count : ℕ} {r : IntComponents}
    (hr : IntSpec graph f count r) {comps : List (Component Id × List ℕ)}
    (hlen : comps.length = count)
    (hcomps : ∀ (i : ℕ) c, comps[i]? = some c →
      Renamed bindings (r.sortedConnectedComponents.getD i []) (r.componentEdges.getD i []) c) :
    IsComponents bindings comps := by
  have hmem : ∀ (i : ℕ) c, comps[i]? = some c → ∀ u, u ∈ c.1.ids ↔
      ∃ n, f n = i ∧ (bindings.map Prod.fst)[n]? = some u := by
    intro i c hc u
    rw [(hcomps i c hc).named.mem_iff]
    constructor
    · rintro ⟨n, hn, hu⟩; exact ⟨n, ((hr.mem i n).1 hn).2, hu⟩
    · rintro ⟨n, hn, hu⟩
      obtain ⟨hlt, -⟩ := List.getElem?_eq_some_iff.1 hu
      exact ⟨n, (hr.mem i n).2 ⟨by rw [h.length]; simpa using hlt, hn⟩, hu⟩
  have hlt : ∀ {n : ℕ} {u}, (bindings.map Prod.fst)[n]? = some u →
      n ∈ Finset.range graph.length := by
    intro n u hu
    obtain ⟨hlt, -⟩ := List.getElem?_eq_some_iff.1 hu
    rw [Finset.mem_range, h.length]
    simpa using hlt
  have hstrong : ∀ (i : ℕ) c, comps[i]? = some c → ∀ u ∈ c.1.ids, ∀ v, v ∈ c.1.ids ↔
      Reaches bindings u v ∧ Reaches bindings v u := by
    intro i c hc u hu v
    obtain ⟨m, hm, hmu⟩ := (hmem i c hc u).1 hu
    rw [hmem i c hc]
    constructor
    · rintro ⟨n, hn, hnv⟩
      have hmutual := (hr.numbers.eq_iff m (hlt hmu) n (hlt hnv)).1 (hm.trans hn.symm)
      exact ⟨(h.avoids_iff hwf hmu hnv).1 hmutual.1, (h.avoids_iff hwf hnv hmu).1 hmutual.2⟩
    · rintro ⟨huv, hvu⟩
      have hv : v ∈ bindings.map Prod.fst := by
        cases huv using Relation.ReflTransGen.casesOn with
        | refl => exact List.mem_of_getElem? hmu
        | tail _ he => exact hwf.inside _ _ he
      obtain ⟨n, hnv⟩ := mem_iff_getElem?.1 hv
      refine ⟨n, ?_, hnv⟩
      rw [← hm]
      exact (hr.numbers.eq_iff n (hlt hnv) m (hlt hmu)).2
        ⟨(h.avoids_iff hwf hnv hmu).2 hvu, (h.avoids_iff hwf hmu hnv).2 huv⟩
  refine ⟨?_, fun c hc u hu v => ?_, fun c hc u => ?_, ?_, ?_, fun c hc => ?_⟩
  · -- both lists have no repetition and the same elements
    refine (List.perm_ext_iff_of_nodup ?_ hwf.nodup).2 fun u => ?_
    · rw [List.nodup_flatMap]
      refine ⟨fun c hc => ?_, List.pairwise_iff_getElem.2 fun i j hi hj hij => ?_⟩
      · obtain ⟨i, hi⟩ := mem_iff_getElem?.1 hc
        exact (hcomps i c hi).named.nodup hwf (hr.nodup i)
      · intro u hu hu'
        obtain ⟨m, hm, hmu⟩ := (hmem i _ (getElem?_eq_getElem hi) u).1 hu
        obtain ⟨n, hn, hnu⟩ := (hmem j _ (getElem?_eq_getElem hj) u).1 hu'
        obtain ⟨hm', hmu'⟩ := List.getElem?_eq_some_iff.1 hmu
        obtain ⟨hn', hnu'⟩ := List.getElem?_eq_some_iff.1 hnu
        obtain rfl : m = n := (List.Nodup.getElem_inj_iff hwf.nodup).1 (hmu'.trans hnu'.symm)
        omega
    · rw [List.mem_flatMap]
      constructor
      · rintro ⟨c, hc, hu⟩
        obtain ⟨i, hi⟩ := mem_iff_getElem?.1 hc
        obtain ⟨n, -, hn⟩ := (hmem i c hi u).1 hu
        exact List.mem_of_getElem? hn
      · intro hu
        obtain ⟨n, hn⟩ := mem_iff_getElem?.1 hu
        have hfn : f n < comps.length := by
          rw [hlen]
          exact hr.numbers.lt n (hlt hn)
        have hc := getElem?_eq_getElem hfn
        exact ⟨_, List.getElem_mem hfn, (hmem _ _ hc u).2 ⟨n, rfl, hn⟩⟩
  · obtain ⟨i, hi⟩ := mem_iff_getElem?.1 hc; exact hstrong i c hi u hu v
  · obtain ⟨i, hi⟩ := mem_iff_getElem?.1 hc; exact (hcomps i c hi).noLoop u
  · intro i j ci cj hi hj hij u hu v hv he
    obtain ⟨m, rfl, hmu⟩ := (hmem i ci hi u).1 hu
    obtain ⟨n, rfl, hnv⟩ := (hmem j cj hj v).1 hv
    have hle := hr.numbers.edge m (hlt hmu) n (hlt hnv) ((h.edge_iff hmu hnv).2 he)
    omega
  · intro i ci hi j
    rw [(hcomps i ci hi).edges, hr.edges]
    constructor
    · rintro ⟨m, n, rfl, hn, rfl⟩
      obtain ⟨u, v, hu, hv, he⟩ := (h.edge m n).1 hn
      have hfn : f n < comps.length := by
        rw [hlen]
        exact hr.numbers.lt n (hlt hv)
      have hc := getElem?_eq_getElem hfn
      exact ⟨_, hc, u, (hmem _ _ hi u).2 ⟨m, rfl, hu⟩, v, (hmem _ _ hc v).2 ⟨n, rfl, hv⟩, he⟩
    · rintro ⟨cj, hj, u, hu, v, hv, he⟩
      obtain ⟨m, hm, hmu⟩ := (hmem i ci hi u).1 hu
      obtain ⟨n, hn, hnv⟩ := (hmem j cj hj v).1 hv
      exact ⟨m, n, hm, (h.edge_iff hmu hnv).2 he, hn⟩
  · obtain ⟨i, hi⟩ := mem_iff_getElem?.1 hc
    rw [(hcomps i c hi).edges]
    exact hr.sorted i

omit [DecidableEq Id] in
theorem numberedComponentGraph_spec (hwf : WellFormed bindings) (h : Positions bindings graph) :
    ∃ comps, numberedComponentGraph (bindings.map Prod.fst) graph = .ok comps ∧
      IsComponents bindings comps := by
  obtain ⟨r, f, count, hrun, hr⟩ := intComponentGraph_spec h.inside
  have hrow : ∀ entry ∈ r.sortedConnectedComponents.zipIdx,
      ∃ c, numberedComponent (bindings.map Prod.fst) graph r.componentEdges entry = .ok c ∧
        Renamed bindings entry.1 (r.componentEdges.getD entry.2 []) c := by
    rintro ⟨nodes, i⟩ hentry
    rw [List.mk_mem_zipIdx_iff_getElem?] at hentry
    obtain ⟨hi, -⟩ := List.getElem?_eq_some_iff.1 hentry
    rw [hr.length] at hi
    have hnodes : r.sortedConnectedComponents.getD i [] = nodes := by simp [List.getD, hentry]
    obtain ⟨n, hn, hfn⟩ := hr.numbers.onto i hi
    have hmem : n ∈ nodes := by
      rw [← hnodes, hr.mem]
      exact ⟨Finset.mem_range.1 hn, hfn⟩
    refine numberedComponent_spec h (List.ne_nil_of_mem hmem) (fun m hm => ?_)
      (by rw [hr.length_edges]; exact hi)
    rw [← hnodes, hr.mem] at hm
    exact hm.1
  obtain ⟨comps, hmap, hall⟩ := mapM_ok hrow
  have hlen : comps.length = count := by
    rw [← hall.length_eq, List.length_zipIdx, hr.length]
  refine ⟨comps, ?_, isComponents_of_renamed hwf h hr hlen fun i c hc => ?_⟩
  · unfold numberedComponentGraph
    simp only [hrun, bind, Except.bind]
    exact hmap
  · obtain ⟨hi, rfl⟩ := List.getElem?_eq_some_iff.1 hc
    have hi' : i < r.sortedConnectedComponents.zipIdx.length := by
      rw [hall.length_eq]
      exact hi
    have hrenamed := hall.get hi' hi
    have hi'' : i < r.sortedConnectedComponents.length := by simpa using hi'
    simpa [List.getD, hi''] using hrenamed

/-- Both functions give the strongly connected components, from the roots to the leaves. -/
theorem connectedComponents_sorted (hwf : WellFormed bindings) :
    (∃ comps, componentGraph bindings = .ok comps ∧ IsComponents bindings comps ∧
      connectedComponentsSortedFromRootsToLeaf bindings = .ok (comps.map Prod.fst)) ∧
    ∃ comps, stableComponentGraph bindings = .ok comps ∧ IsComponents bindings comps ∧
      stableConnectedComponentsSortedFromRootsToLeaf bindings = .ok (comps.map Prod.fst) := by
  constructor
  · obtain ⟨graph, hnumber, hlen, hedge⟩ := number_spec hwf false
    obtain ⟨comps, hrun, hcomps⟩ := numberedComponentGraph_spec hwf ⟨hlen, hedge⟩
    have hgraph : componentGraph bindings = .ok comps := by
      unfold componentGraph
      simp only [hnumber, bind]
      exact hrun
    refine ⟨comps, hgraph, hcomps, ?_⟩
    unfold connectedComponentsSortedFromRootsToLeaf
    rw [hgraph]
    rfl
  · obtain ⟨graph, hnumber, hlen, hedge⟩ := number_spec hwf true
    obtain ⟨comps, hrun, hcomps⟩ := numberedComponentGraph_spec hwf ⟨hlen, hedge⟩
    have hgraph : stableComponentGraph bindings = .ok comps := by
      unfold stableComponentGraph
      simp only [hnumber, bind]
      exact hrun
    refine ⟨comps, hgraph, hcomps, ?_⟩
    unfold stableConnectedComponentsSortedFromRootsToLeaf
    rw [hgraph]
    rfl

end Make

/-- A chain from 0 to a loop of 1 and 2, which leads to 3, and a node with an edge to itself. -/
def exampleGraph : DirectedGraph ℕ := [(0, [1]), (1, [2]), (2, [1, 3]), (3, []), (4, [4, 0])]

theorem connectedComponents_sorted_example : connectedComponentsSortedFromRootsToLeaf exampleGraph =
        .ok [.hasLoop [4], .noLoop 0, .hasLoop [2, 1], .noLoop 3] ∧
      ∃ comps, componentGraph exampleGraph = .ok comps ∧ IsComponents exampleGraph comps := by
  have hwf : WellFormed exampleGraph := by
    refine ⟨by decide, ?_⟩
    rintro u v ⟨dests, hmem, hv⟩
    simp only [exampleGraph, mem_cons, List.not_mem_nil] at hmem
    rcases hmem with ⟨-, rfl⟩ | ⟨-, rfl⟩ | ⟨-, rfl⟩ | ⟨-, rfl⟩ | ⟨-, rfl⟩ <;>
      simp_all [exampleGraph] <;> lia
  obtain ⟨comps, hrun, hcomps, -⟩ := (connectedComponents_sorted hwf).1
  exact ⟨by rfl, comps, hrun, hcomps⟩

end Oxcaml.Utils.StronglyConnectedComponents
