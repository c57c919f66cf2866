/-
Oxcaml.Lambda.SwitchClusters — the clusters of `switch.ml` and their jump tables.

`comp_clusters` fills two arrays: for each case the number of clusters up to it, and the
first case of its last cluster. `Row` is what an entry says; it refers to entries before
it, which do not change any more (§1). A cluster of more than one case is narrow, so that
its table is not too large and the subtraction of its lower end does not wrap (§2, §3).
The clusters, from the last to the first, cover the cases from some case on (§4).
-/
import Oxcaml.Lib.Outcome
import Oxcaml.Lambda.SwitchTests

set_option linter.all false

namespace Oxcaml.Lambda.Switch

open List (getElem?_set_ne mem_cons mem_of_getElem? replicate)

open Lib (Span Returns Outcome)
open Lib.Span (Ascending Picks Within picks_append)

/-! ## §1 The rows of the dynamic program -/

variable {okInter : Bool} {F : FloatTest} {cases : List Case}

/-- Cases that are compiled: not empty, in increasing order, integers. -/
structure WellFormed (cases : List Case) : Prop where
  ne_nil : cases ≠ []
  /-- `Sys.max_array_length`. -/
  size : cases.length < 2 ^ 54
  ascending : Ascending cases
  ints : Within cases minInt maxInt

/-- One case, or a range that can have a table. -/
def Narrow (cases : List Case) (i j : ℕ) : Prop :=
  i = j ∨ ∃ ci cj, cases[i]? = some ci ∧ cases[j]? = some cj ∧ cj.high - ci.low < 2 ^ 61

variable {i j : ℕ}

theorem approxCount_returns (h : WellFormed cases) (hij : i ≤ j) (hj : j < cases.length) :
    Returns (Inv okInter) (approxCount cases i j) fun n => n < 2 ^ 54 := by
  have hsize := h.size
  have hl : (j : ℤ) - i + 1 = (j + 1 - i : ℕ) := by omega
  unfold approxCount
  simp only [hl]
  split
  · have hlen : ((cases.drop i).take (j + 1 - i)).length = j + 1 - i := by simp; omega
    refine .bind (.lift (sub_eq cases i (j + 1 - i) (by omega)) (Q := (· = _)) rfl) ?_
    rintro _ rfl
    refine .bind (optCountOf_returns (List.ne_nil_of_length_pos (by omega)) (by omega))
      fun ⟨_, _, c⟩ hc => .pure ?_
    have hcheap := hc.cheap.all
    dsimp only at hcheap ⊢
    omega
  · exact .pure (by omega)

variable {i j n ir : ℕ} {c ci cj : Case}

theorem lt_next (h : WellFormed cases) {d : Case} (hc : cases[i]? = some c)
    (hd : cases[i + 1]? = some d) : c.low < d.low ∧ norm (c.low + 1) = c.low + 1 := by
  obtain ⟨hi, rfl⟩ := List.getElem?_eq_some_iff.1 hc
  obtain ⟨hi', rfl⟩ := List.getElem?_eq_some_iff.1 hd
  have hlt := List.pairwise_iff_getElem.1 h.ascending.below i (i + 1) hi hi' (by omega)
  have hne := h.ascending.nonempty _ (List.getElem_mem hi)
  have hne' := h.ascending.nonempty _ (List.getElem_mem hi')
  have hint := h.ints _ (List.getElem_mem hi)
  have hint' := h.ints _ (List.getElem_mem hi')
  exact ⟨by omega, norm_eq (by omega) (by omega)⟩

theorem particularCase_spec (h : WellFormed cases) (hij : i ≤ j) (hj : j < cases.length) :
    ∃ b, particularCase cases i j = .ok b ∧ (b = true → Narrow cases i j) := by
  unfold particularCase
  split
  · have hj2 : j = i + 2 := by omega
    subst hj2
    have h1 : cases[i]? = some cases[i] := List.getElem?_eq_getElem (by omega)
    have h2 : cases[i + 1]? = some cases[i + 1] := List.getElem?_eq_getElem (by omega)
    have h3 : cases[i + 2]? = some cases[i + 2] := List.getElem?_eq_getElem (by omega)
    have hg2 : get cases ((i : ℤ) + 1) = .ok cases[i + 1] := get_eq (n := i + 1) h2
    have hg3 : get cases ((i : ℤ) + 2) = .ok cases[i + 2] := get_eq (n := i + 2) h3
    simp only [get_eq h1, hg2, hg3, pure]
    refine ⟨_, rfl, fun hb => .inr ⟨_, _, h1, h3, ?_⟩⟩
    obtain ⟨-, hn1⟩ := lt_next h h1 h2
    obtain ⟨-, hn2⟩ := lt_next h h2 h3
    rw [hn1] at hb
    simp only [Bool.and_eq_true, decide_eq_true_eq] at hb
    omega
  · exact ⟨false, rfl, fun hb => (nomatch hb)⟩

theorem dense_returns (h : WellFormed cases) (hij : i ≤ j) (hj : j < cases.length) :
    Returns (Inv okInter) (dense F cases i j) fun b =>
      (b = true → Narrow cases i j) ∧ (i = j → b = true) := by
  have hci : cases[i]? = some cases[i] := List.getElem?_eq_getElem (by omega)
  have hcj : cases[j]? = some cases[j] := List.getElem?_eq_getElem hj
  unfold dense
  split
  · exact .pure ⟨fun _ => .inl (by omega), fun _ => rfl⟩
  refine .bind (.lift (get_eq hci) (Q := (· = _)) rfl) ?_
  rintro _ rfl
  refine .bind (.lift (get_eq hcj) (Q := (· = _)) rfl) ?_
  rintro _ rfl
  refine .bind (approxCount_returns h hij hj) fun ntests hn => ?_
  obtain ⟨b, hb, hparticular⟩ := particularCase_spec h hij hj
  refine .bind (.lift hb (Q := (· = b)) rfl) fun b' hb' => ?_
  subst hb'
  split
  · rename_i htrue
    exact .pure ⟨fun _ => hparticular htrue, fun heq => absurd heq (by omega)⟩
  refine .pure ⟨fun hdense => .inr ⟨_, _, hci, hcj, ?_⟩, fun heq => absurd heq (by omega)⟩
  by_contra hwide
  rw [F.sparse ntests _ _ (by omega) (by omega), Bool.and_false] at hdense
  cases hdense

/-- The number of clusters before the case `j`. -/
def Before (minClusters : List ℕ) (j m : ℕ) : Prop :=
  j = 0 ∧ m = 0 ∨ ∃ i, j = i + 1 ∧ minClusters[i]? = some m

/-- The entry of the case `i`: its last cluster starts at a case `j`. -/
def Row (cases : List Case) (minClusters k : List ℕ) (i : ℕ) : Prop :=
  ∃ j m, j ≤ i ∧ m ≤ j ∧ k[i]? = some j ∧ minClusters[i]? = some (m + 1) ∧ Before minClusters j m ∧
    Narrow cases j i

/-- The entries before the case `i` are filled, the others have their start value. -/
structure Rows (cases : List Case) (i : ℕ) (acc : List ℕ × List ℕ) : Prop where
  length_min : acc.1.length = cases.length
  length_k : acc.2.length = cases.length
  filled : ∀ i' < i, Row cases acc.1 acc.2 i'
  rest : ∀ i', i ≤ i' → i' < cases.length → acc.1[i']? = some maxInt.toNat

/-- In a round for the case `i` its entry is filled, or has its start value. -/
structure Round (cases : List Case) (i : ℕ) (acc : List ℕ × List ℕ) : Prop where
  length_min : acc.1.length = cases.length
  length_k : acc.2.length = cases.length
  filled : ∀ i' < i, Row cases acc.1 acc.2 i'
  current : Row cases acc.1 acc.2 i ∨ acc.1[i]? = some maxInt.toNat
  rest : ∀ i', i < i' → i' < cases.length → acc.1[i']? = some maxInt.toNat

variable {acc : List ℕ × List ℕ}

theorem Rows.round (h : Rows cases i acc) (hi : i < cases.length) : Round cases i acc :=
  ⟨h.length_min, h.length_k, h.filled, .inr (h.rest i le_rfl hi),
    fun i' hii' hi' => h.rest i' (by omega) hi'⟩

theorem Round.before (h : Round cases i acc) (hj : j ≤ i) :
    ∃ m, m ≤ j ∧ Before acc.1 j m ∧ getMin acc.1 ((j : ℤ) - 1) = .ok m := by
  cases j with
  | zero => exact ⟨0, le_rfl, .inl ⟨rfl, rfl⟩, rfl⟩
  | succ j =>
    obtain ⟨j', m, hj', hm, -, hmin, -, -⟩ := h.filled j (by omega)
    refine ⟨m + 1, by omega, .inr ⟨j, rfl, hmin⟩, ?_⟩
    have hcast : ((j + 1 : ℕ) : ℤ) - 1 = (j : ℕ) := by omega
    rw [hcast]
    exact get_eq hmin

variable {minClusters k : List ℕ}

theorem Before.set {m : ℕ} (h : Before minClusters j m) (hj : j ≤ i)
    (x : ℕ) : Before (minClusters.set i x) j m := by
  rcases h with h | ⟨i', rfl, hmin⟩
  · exact .inl h
  refine .inr ⟨i', rfl, ?_⟩
  rw [getElem?_set_ne (by omega)]
  exact hmin

theorem Row.set {i' : ℕ} (h : Row cases minClusters k i') (hi : i' < i)
    (x y : ℕ) : Row cases (minClusters.set i x) (k.set i y) i' := by
  obtain ⟨j, m, hj, hm, hk, hmin, hbefore, hnarrow⟩ := h
  refine ⟨j, m, hj, hm, ?_, ?_, hbefore.set (by omega) x, hnarrow⟩
  · rw [getElem?_set_ne (by omega)]; exact hk
  · rw [getElem?_set_ne (by omega)]; exact hmin

theorem clusterStep_returns (h : WellFormed cases) (hi : i < cases.length) (hj : j ≤ i)
    (hacc : Round cases i acc) :
    Returns (Inv okInter) (clusterStep F cases i acc j) fun acc =>
      Round cases i acc ∧ (j = i → Row cases acc.1 acc.2 i) := by
  have hsize := h.size
  refine .bind (dense_returns h hj hi) fun b hb => ?_
  cases b with
  | false => exact .pure ⟨hacc, fun heq => by have := hb.2 heq; cases this⟩
  | true =>
    obtain ⟨m, hm, hbefore, hget⟩ := hacc.before hj
    refine .bind (.lift hget (Q := (· = m)) rfl) fun _ hm' => ?_
    subst hm'
    have hmin := hacc.length_min
    have hk := hacc.length_k
    have hcur : acc.1[i]? = some acc.1[i] := List.getElem?_eq_getElem (by omega)
    refine .bind (.lift (get_eq hcur) (Q := (· = _)) rfl) ?_
    rintro _ rfl
    split
    · refine .bind (.lift (set_eq (by omega) j) (Q := (· = _)) rfl) ?_
      rintro _ rfl
      refine .bind (.lift (set_eq (by omega) _) (Q := (· = _)) rfl) ?_
      rintro _ rfl
      have hrow : Row cases (acc.1.set i (_ + 1)) (acc.2.set i j) i :=
        ⟨j, _, hj, hm, by rw [List.getElem?_set_self (by omega)],
          by rw [List.getElem?_set_self (by omega)], hbefore.set hj _, hb.1 rfl⟩
      refine .pure ⟨⟨by simpa using hmin, by simpa using hk, ?_, .inl hrow, ?_⟩, fun _ => hrow⟩
      · exact fun i' hi' => (hacc.filled i' hi').set hi' _ _
      intro i' hii' hi'
      rw [getElem?_set_ne (by omega)]
      exact hacc.rest i' hii' hi'
    rename_i hless
    refine .pure ⟨hacc, fun _ => ?_⟩
    rcases hacc.current with hrow | hstart
    · exact hrow
    rw [hcur] at hstart
    injection hstart with hstart
    rw [hstart] at hless
    exact absurd (show _ < maxInt.toNat by unfold maxInt; omega) hless

theorem clusterRound_returns (h : WellFormed cases) (hi : i < cases.length)
    (hacc : Round cases i acc) :
    Returns (Inv okInter) ((List.range (i + 1)).foldlM (clusterStep F cases i) acc)
      (Rows cases (i + 1)) := by
  rw [List.range_succ, List.foldlM_append]
  refine .bind (Q := Round cases i) ?_ fun acc hacc => ?_
  · refine .foldlM (J := fun _ => Round cases i) hacc fun j _ acc hj hacc => ?_
    rw [List.mem_range] at hj
    exact (clusterStep_returns h hi (by omega) hacc).mono fun acc hacc => hacc.1
  refine .bind (clusterStep_returns h hi le_rfl hacc) fun acc ⟨hacc, hrow⟩ => .pure ?_
  refine ⟨hacc.length_min, hacc.length_k, fun i' hi' => ?_, fun i' hi' => hacc.rest i' (by omega)⟩
  rcases Nat.lt_succ_iff_lt_or_eq.1 hi' with hlt | rfl
  · exact hacc.filled i' hlt
  · exact hrow rfl

/-- All entries are filled. -/
theorem compClusters_returns (h : WellFormed cases) :
    Returns (Inv okInter) (compClusters F cases) fun r => ∃ minClusters,
      Rows cases cases.length (minClusters, r.2) ∧ minClusters[cases.length - 1]? = some r.1 := by
  have hpos := List.length_pos_iff.2 h.ne_nil
  have hrounds : ∀ n ≤ cases.length, Returns (Inv okInter) ((List.range n).foldlM (fun acc i =>
      (List.range (i + 1)).foldlM (clusterStep F cases i) acc)
      (replicate cases.length maxInt.toNat, replicate cases.length 0))
      (Rows cases n) := by
    intro n
    induction n with
    | zero =>
      intro _
      exact .pure ⟨by simp, by simp, fun i' hi' => absurd hi' (by omega), fun i' _ hi' => by
        simp [hi']⟩
    | succ n ih =>
      intro hn
      rw [List.range_succ, List.foldlM_append]
      refine .bind (ih (by omega)) fun acc hacc => ?_
      exact .bind (clusterRound_returns h (by omega) (hacc.round (by omega))) fun _ hacc' =>
        .pure hacc'
  refine .bind (hrounds _ le_rfl) fun ⟨minClusters, k⟩ hrows => ?_
  have hlen : minClusters.length = cases.length := hrows.length_min
  have hlast : minClusters[cases.length - 1]? = some minClusters[cases.length - 1] :=
    List.getElem?_eq_getElem (by omega)
  have hget : get minClusters ((cases.length : ℤ) - 1) = .ok minClusters[cases.length - 1] := by
    rw [← get_eq hlast]
    congr 1
    omega
  refine .bind (.lift hget (Q := (· = _)) rfl) ?_
  rintro _ rfl
  exact .pure ⟨minClusters, hrows, hlast⟩

/-! ## §2 Tables -/

theorem fill_spec (tbl : List ℕ) (first count index : ℕ) (h : first + count ≤ tbl.length) :
    ∃ tbl', fill tbl first count index = .ok tbl' ∧ tbl'.length = tbl.length ∧
      ∀ n, tbl'[n]? = if first ≤ n ∧ n < first + count then some index else tbl[n]? := by
  induction count generalizing first tbl with
  | zero => refine ⟨tbl, rfl, rfl, fun n => ?_⟩; rw [if_neg (by omega)]
  | succ count ih =>
    obtain ⟨tbl', hfill, hlen, hget⟩ := ih (tbl.set first index) (first + 1) (by simp; omega)
    refine ⟨tbl', ?_, by simpa using hlen, fun n => ?_⟩
    · unfold fill at hfill ⊢
      rw [List.range'_succ, List.foldlM_cons, set_eq (by omega)]
      exact hfill
    rw [hget n]
    rcases Nat.lt_trichotomy n first with hlt | rfl | hgt
    · rw [if_neg (by omega), if_neg (by omega), getElem?_set_ne (by omega)]
    · rw [if_neg (by omega), if_pos (by omega), List.getElem?_set_self (by omega)]
    by_cases hn : n < first + (count + 1)
    · rw [if_pos (by omega), if_pos (by omega)]
    · rw [if_neg (by omega), if_neg (by omega), getElem?_set_ne (by omega)]

/-- The action has its number; the others keep theirs. -/
theorem getIndex_spec (actOf : ℕ) (t : List ℕ) :
    (getIndex actOf t).2[(getIndex actOf t).1]? = some actOf ∧
      (∀ (n : ℕ) a, t[n]? = some a → (getIndex actOf t).2[n]? = some a) ∧
      ∀ a ∈ (getIndex actOf t).2, a = actOf ∨ a ∈ t := by
  unfold getIndex
  cases hfind : t.findIdx? (· = actOf) with
  | some i =>
    obtain ⟨hi, heq, -⟩ := List.findIdx?_eq_some_iff_getElem.1 hfind
    refine ⟨?_, fun n a hn => hn, fun a ha => .inr ha⟩
    simpa [hi] using heq
  | none =>
    refine ⟨by simp, fun n a hn => ?_, fun a ha => ?_⟩
    · rw [List.getElem?_append_left (List.getElem?_eq_some_iff.1 hn).1]; exact hn
    · simpa [or_comm] using ha

/-- The entries of the case `k` lead to its action. -/
def Filled (cases : List Case) (ll : ℤ) (tbl t : List ℕ) (k : ℕ) : Prop :=
  ∀ c, cases[k]? = some c → ∀ x, c.low ≤ x → x ≤ c.high →
    ∃ index, tbl[(x - ll).toNat]? = some index ∧ t[index]? = some c.act

/-- The table of a narrow range: as long as the range, with the actions of its cases. -/
structure Table (cases : List Case) (i j : ℕ) (ll hh : ℤ) (tbl t : List ℕ) : Prop where
  length : (tbl.length : ℤ) = hh - ll + 1
  filled : ∀ k, i ≤ k → k ≤ j → Filled cases ll tbl t k
  acts : ∀ a ∈ t, ∃ c ∈ cases, c.act = a

theorem low_le_high (h : WellFormed cases) (hij : i ≤ j)
    (hci : cases[i]? = some ci) (hcj : cases[j]? = some cj) :
    ci.low ≤ cj.low ∧ ci.high ≤ cj.high := by
  obtain ⟨hi, rfl⟩ := List.getElem?_eq_some_iff.1 hci
  obtain ⟨hj, rfl⟩ := List.getElem?_eq_some_iff.1 hcj
  have hnei := h.ascending.nonempty _ (List.getElem_mem hi)
  have hnej := h.ascending.nonempty _ (List.getElem_mem hj)
  rcases Nat.lt_or_ge i j with hlt | hge
  · have hlt := List.pairwise_iff_getElem.1 h.ascending.below i j hi hj hlt; omega
  · obtain rfl : i = j := by omega
    omega

theorem high_lt_low (h : WellFormed cases) (hij : i < j)
    (hci : cases[i]? = some ci) (hcj : cases[j]? = some cj) : ci.high < cj.low := by
  obtain ⟨hi, rfl⟩ := List.getElem?_eq_some_iff.1 hci
  obtain ⟨hj, rfl⟩ := List.getElem?_eq_some_iff.1 hcj
  exact List.pairwise_iff_getElem.1 h.ascending.below i j hi hj hij

theorem fillLoop_spec (h : WellFormed cases) (hij : i ≤ j)
    (hci : cases[i]? = some ci) (hcj : cases[j]? = some cj) :
    Outcome (fun _ : Exn => False)
    ((upTo i j).foldlM (fun (acc : List ℕ × List ℕ) (k : ℕ) => do
      let c ← get cases (k : ℤ)
      let (index, t) := getIndex c.act acc.2
      let tbl ← fill acc.1 (c.low - ci.low).toNat (c.high - c.low + 1).toNat index
      pure (tbl, t)) (replicate (cj.high - ci.low + 1).toNat 0, [])) (fun acc =>
    (acc.1.length : ℤ) = cj.high - ci.low + 1 ∧
      (∀ k ∈ upTo i j, Filled cases ci.low acc.1 acc.2 k) ∧ ∀ a ∈ acc.2, ∃ c ∈ cases, c.act = a) := by
  have hcine := h.ascending.nonempty ci (mem_of_getElem? hci)
  have hhigh := (low_le_high h hij hci hcj).2
  let I : List ℕ → List ℕ × List ℕ → Prop := fun done acc =>
    (acc.1.length : ℤ) = cj.high - ci.low + 1 ∧
      (∀ k ∈ done, Filled cases ci.low acc.1 acc.2 k) ∧ ∀ a ∈ acc.2, ∃ c ∈ cases, c.act = a
  refine Outcome.foldlM (I := I) ⟨by simp; lia, by simp, by simp⟩ ?_
  rintro done k rest ⟨tbl, t⟩ hl ⟨hlen, hfilled, hacts⟩
  have hk : i ≤ k ∧ k ≤ j := by
    rw [← mem_upTo, hl]
    simp
  have hnodup : k ∉ done := by
    have hnd : (upTo i j).Nodup := List.nodup_range'
    rw [hl, List.nodup_append] at hnd
    exact fun hmem => hnd.2.2 k hmem k List.mem_cons_self rfl
  obtain ⟨hjl, -⟩ := List.getElem?_eq_some_iff.1 hcj
  have hck : cases[k]? = some cases[k] := List.getElem?_eq_getElem (by lia)
  have hlo := low_le_high h hk.1 hci hck
  have hhi := low_le_high h hk.2 hck hcj
  have hkne := h.ascending.nonempty _ (mem_of_getElem? hck)
  obtain ⟨hidx, hkeep, hmem⟩ := getIndex_spec cases[k].act t
  obtain ⟨tbl', hfill, hlen', hget⟩ := fill_spec tbl (cases[k].low - ci.low).toNat
    (cases[k].high - cases[k].low + 1).toNat (getIndex cases[k].act t).1
    (by dsimp only at hlen; lia)
  simp only [get_eq hck, bind, Except.bind, hfill]
  refine ⟨by dsimp only at hlen ⊢; lia, fun k' hk' c hc x hx1 hx2 => ?_, fun a ha => ?_⟩
  · have hx := hget (x - ci.low).toNat
    rcases List.mem_append.1 hk' with hk' | hk'
    · -- the entries of the cases that are done are not written again
      obtain ⟨index, hindex, hact⟩ := hfilled k' hk' c hc x hx1 hx2
      refine ⟨index, ?_, hkeep _ _ hact⟩
      have hk'i : i ≤ k' := by
        have hmem : k' ∈ upTo i j := by
          rw [hl]
          exact List.mem_append_left _ hk'
        exact (mem_upTo.1 hmem).1
      have hlo' := low_le_high h hk'i hci hc
      have hne : k' ≠ k := fun heq => hnodup (heq ▸ hk')
      rcases Nat.lt_or_gt_of_ne hne with hlt | hgt
      · have hsep := high_lt_low h hlt hc hck
        rw [hx, if_neg (by lia)]
        exact hindex
      have hsep := high_lt_low h hgt hck hc
      rw [hx, if_neg (by lia)]
      exact hindex
    rw [List.mem_singleton] at hk'
    subst hk'
    rw [hck] at hc
    injection hc with hc
    subst hc
    exact ⟨_, by rw [hx, if_pos (by lia)], hidx⟩
  rcases hmem a ha with rfl | ha
  · exact ⟨_, mem_of_getElem? hck, rfl⟩
  · exact hacts a ha

theorem switchTable_spec (h : WellFormed cases) (hij : i ≤ j)
    (hci : cases[i]? = some ci) (hcj : cases[j]? = some cj) (hnarrow : cj.high - ci.low < 2 ^ 61) :
    ∃ tbl t, switchTable cases i j = .ok (ci.low, tbl, t) ∧
      Table cases i j ci.low cj.high tbl t := by
  have hcine := h.ascending.nonempty ci (mem_of_getElem? hci)
  have hhigh := (low_le_high h hij hci hcj).2
  have hsize : norm (norm (cj.high - ci.low) + 1) = cj.high - ci.low + 1 := by
    rw [norm_eq (z := cj.high - ci.low) (by unfold minInt; lia) (by unfold maxInt; lia)]
    exact norm_eq (by unfold minInt; lia) (by unfold maxInt; lia)
  have hmake : make (cj.high - ci.low + 1) 0 =
      .ok (replicate (cj.high - ci.low + 1).toNat 0) := by
    unfold make
    rw [if_neg (by lia)]
    rfl
  obtain ⟨⟨tbl, t⟩, hrun, hlen, hfilled, hacts⟩ := (fillLoop_spec h hij hci hcj).exists_ok
  refine ⟨tbl, t, ?_, hlen, fun k hik hkj => hfilled k (mem_upTo.2 ⟨hik, hkj⟩), hacts⟩
  unfold switchTable
  simp only [get_eq hci, get_eq hcj, bind, Except.bind, hsize, hmake]
  simp only [bind, Except.bind] at hrun
  rw [hrun]
  rfl

/-! ## §3 Jump tables -/

variable {arg test act Env O : Type} {A : Arg arg test act} {S : Meaning A Env O}

/-- The actions of the cases exist. -/
def Defined (actions : List act) (cases : List Case) : Prop :=
  ∀ c ∈ cases, ∃ code, actions[c.act]? = some code

variable {actions : List act}

theorem mapM_get {t : List ℕ} (h : ∀ a ∈ t, ∃ code, actions[a]? = some code) :
    ∃ acts, t.mapM (fun (a : ℕ) => get actions a) = .ok acts ∧
      ∀ (n a : ℕ) code, t[n]? = some a → actions[a]? = some code → acts[n]? = some code := by
  induction t with
  | nil => exact ⟨[], rfl, fun n a code hn => by simp at hn⟩
  | cons b t ih =>
    obtain ⟨acts, hacts, hget⟩ := ih fun a ha => h a (List.mem_cons_of_mem _ ha)
    obtain ⟨code, hcode⟩ := h b List.mem_cons_self
    refine ⟨code :: acts, ?_, fun n a code' hn ha => ?_⟩
    · rw [List.mapM_cons, get_eq hcode, hacts]; rfl
    cases n with
    | zero =>
      injection hn with hn
      rw [← hn, hcode] at ha
      exact ha
    | succ n => exact hget n a code' hn ha

/-- The argument of a table: the input, less the lower end of the range. -/
theorem Target.Tracks.table_index {T : Target S} {ρ : Env} {ctx : Ctx arg} (h : T.Tracks ρ ctx)
    {ll : ℤ} (h1 : ll ≤ T.x) (h2 : T.x - ll < 2 ^ 61) :
    norm (T.x + ctx.off + norm (norm (-ll) - ctx.off)) = T.x - ll ∧
      (norm (norm (-ll) - ctx.off) = 0 → T.x + ctx.off = T.x - ll) := by
  have hmin := T.minInt_le
  have hmax := T.le_maxInt
  have hlow := h.low_le
  have hhigh := h.le_high
  have hoff : -interLimit ≤ ctx.off ∧ ctx.off ≤ interLimit := by
    rcases h.off with hoff | ⟨-, hoff⟩
    · unfold interLimit; omega
    · exact hoff
  unfold minInt maxInt interLimit at *
  unfold norm
  constructor
  · omega
  · intro hzero; omega

theorem makeSwitch_spec (h : WellFormed cases) (hdef : Defined actions cases) (hij : i ≤ j)
    (hci : cases[i]? = some ci) (hcj : cases[j]? = some cj)
    (hnarrow : cj.high - ci.low < 2 ^ 61) :
    ∃ f, makeSwitch A cases actions i j = .ok f ∧ (∀ ctx, ∃ code, f ctx = .ok code) ∧
      ∀ T : Target S, ∀ (k : ℕ) c code, i ≤ k → k ≤ j → cases[k]? = some c → c.Contains T.x →
        actions[c.act]? = some code → (∀ ρ, S.run ρ code = T.outcome ρ) → T.Right f := by
  obtain ⟨tbl, t, htable, hlen, hfilled, hacts⟩ := switchTable_spec h hij hci hcj hnarrow
  have hexist : ∀ a ∈ t, ∃ code, actions[a]? = some code := by
    intro a ha
    obtain ⟨c, hc, rfl⟩ := hacts a ha
    exact hdef c hc
  obtain ⟨acts, hmap, hget⟩ := mapM_get hexist
  refine ⟨switchCode A ci.low tbl acts, ?_, fun ctx => ?_,
    fun T k c code hik hkj hc hx hcode hright => ?_⟩
  · simp only [makeSwitch, htable, bind, Except.bind, hmap]; rfl
  · unfold switchCode
    dsimp only
    split_ifs
    · exact ⟨_, rfl⟩
    · exact ⟨_, rfl⟩
  have hclow := (low_le_high h hik hci hc).1
  have hchigh := (low_le_high h hkj hc hcj).2
  obtain ⟨hx1, hx2⟩ := hx
  have hle : ci.low ≤ T.x := by omega
  have hlt : T.x - ci.low < 2 ^ 61 := by omega
  obtain ⟨index, hindex, hact⟩ := hfilled k hik hkj c hc T.x hx1 hx2
  have hentry := hget index _ code hact hcode
  have hnat : T.x - ci.low = ((T.x - ci.low).toNat : ℤ) := by omega
  intro ctx made hmade ρ hρ
  obtain ⟨hshift, hsame⟩ := hρ.table_index hle hlt
  unfold switchCode at hmade
  dsimp only at hmade
  split_ifs at hmade with hzero
  · injection hmade with hmade
    rw [← hmade, S.run_makeSwitch ρ _ _ _ _ index code ?_ hindex hentry, hright]
    rw [hρ.value, hsame hzero]
    exact hnat
  injection hmade with hmade
  rw [← hmade, S.run_bindIn, S.run_makeSwitch _ _ _ _ _ index code ?_ hindex hentry, hright,
    T.stable]
  rw [S.value_newarg, S.value_makeOffset, hρ.value, hshift]
  exact hnat

/-! ## §4 Clusters -/

/-- The code of the cluster is always made, and right when that of the input's case is. -/
structure Covers (S : Meaning A Env O) (cases : List Case) (actions : List act) (i j : ℕ)
    (ca : ClusterAct arg act) : Prop where
  total : ∀ ctx, ∃ code, clusterCode actions ca ctx = .ok code
  right : ∀ T : Target S, ∀ (k : ℕ) c code, i ≤ k → k ≤ j → cases[k]? = some c →
    c.Contains T.x → actions[c.act]? = some code → (∀ ρ, S.run ρ code = T.outcome ρ) →
    T.Right (clusterCode actions ca)

theorem covers_action (hdef : Defined actions cases)
    (hc : cases[j]? = some c) : Covers S cases actions j j (.action c.act) := by
  obtain ⟨code, hcode⟩ := hdef c (mem_of_getElem? hc)
  refine ⟨fun ctx => ⟨code, get_eq hcode⟩, fun T k d code' hjk hkj hd _ hcode' hright => ?_⟩
  obtain rfl : k = j := by omega
  rw [hc] at hd
  injection hd with hd
  subst hd
  intro ctx made hmade ρ _
  have hget : get actions (c.act : ℤ) = .ok made := hmade
  rw [get_eq hcode'] at hget
  injection hget with hget
  rw [← hget]
  exact hright ρ

/-- The clusters from `ir` on are those of the cases from `i` on. -/
structure Built (S : Meaning A Env O) (cases : List Case) (actions : List act) (i ir : ℕ)
    (s : Clusters arg act) : Prop where
  ascending : Ascending (s.r.drop ir)
  above : ∀ c ∈ cases.take i, ∀ d ∈ s.r.drop ir, c.high < d.low
  within : ∀ low high, Within cases low high → Within (s.r.drop ir) low high
  total : ∀ d ∈ s.r.drop ir, ∃ ca, s.t[d.act]? = some ca ∧
    ∀ ctx, ∃ code, clusterCode actions ca ctx = .ok code
  right : ∀ T : Target S, ∀ a code, Picks (cases.drop i) T.x a → actions[a]? = some code →
    (∀ ρ, S.run ρ code = T.outcome ρ) →
    ∃ index ca, Picks (s.r.drop ir) T.x index ∧ s.t[index]? = some ca ∧
      T.Right (clusterCode actions ca)

theorem drop_set_self {α : Type} {l : List α} (h : n < l.length) (x : α) :
    (l.set n x).drop n = x :: l.drop (n + 1) := by
  rw [List.drop_eq_getElem_cons (by simpa using h), List.getElem_set_self,
    List.drop_set_of_lt (by omega)]

variable {s : Clusters arg act}

theorem Built.push (h : WellFormed cases) {index : ℕ}
    (hs : Built S cases actions (j + 1) (ir + 1) s)
    (hij : i ≤ j) (hci : cases[i]? = some ci) (hcj : cases[j]? = some cj) (hir : ir < s.r.length)
    {t : List (ClusterAct arg act)} {ca : ClusterAct arg act} (hca : t[index]? = some ca)
    (hkeep : ∀ (n : ℕ) ca, s.t[n]? = some ca → t[n]? = some ca)
    (hcovers : Covers S cases actions i j ca) :
    Built S cases actions i ir ⟨s.r.set ir ⟨ci.low, cj.high, index⟩, t⟩ := by
  have hnei := h.ascending.nonempty ci (mem_of_getElem? hci)
  have hhigh := (low_le_high h hij hci hcj).2
  have hmemj : cj ∈ cases.take (j + 1) := by
    rw [List.mem_iff_getElem?]
    exact ⟨j, by rw [List.getElem?_take, if_pos (by omega), hcj]⟩
  have hdrop := drop_set_self hir ⟨ci.low, cj.high, index⟩
  constructor
  · rw [hdrop]
    refine ⟨fun d hd => ?_, List.pairwise_cons.2 ⟨fun d hd => ?_, hs.ascending.below⟩⟩
    · rcases mem_cons.1 hd with rfl | hd
      · dsimp only; omega
      · exact hs.ascending.nonempty d hd
    · exact hs.above cj hmemj d hd
  · intro c hc d hd
    rw [hdrop] at hd
    rcases mem_cons.1 hd with rfl | hd
    · obtain ⟨k, hk⟩ := List.mem_iff_getElem?.1 hc
      rw [List.getElem?_take] at hk
      split_ifs at hk with hlt
      have hsep := high_lt_low h hlt hk hci
      exact hsep
    have hsub : (cases.take i).Sublist (cases.take (j + 1)) :=
      List.take_sublist_take_left (by omega)
    exact hs.above c (hsub.subset hc) d hd
  · intro low high hw d hd
    rw [hdrop] at hd
    rcases mem_cons.1 hd with rfl | hd
    · exact ⟨(hw ci (mem_of_getElem? hci)).1, (hw cj (mem_of_getElem? hcj)).2⟩
    · exact hs.within low high hw d hd
  · intro d hd
    rw [hdrop] at hd
    rcases mem_cons.1 hd with rfl | hd
    · exact ⟨ca, hca, hcovers.total⟩
    · obtain ⟨ca', hca', htotal⟩ := hs.total d hd; exact ⟨ca', hkeep _ _ hca', htotal⟩
  rintro T a code ⟨c, hc, hx, rfl⟩ hcode hright
  rw [hdrop]
  obtain ⟨k, hk⟩ := List.mem_iff_getElem?.1 hc
  rw [List.getElem?_drop] at hk
  rcases Nat.lt_or_ge j (i + k) with hlt | hge
  · have hpick : Picks (cases.drop (j + 1)) T.x c.act := by
      refine ⟨c, ?_, hx, rfl⟩
      rw [List.mem_iff_getElem?]
      refine ⟨i + k - (j + 1), ?_⟩
      rw [List.getElem?_drop, ← hk]
      congr 1
      omega
    obtain ⟨index', ca', ⟨d, hd, hdx⟩, hca', hright'⟩ := hs.right T _ _ hpick hcode hright
    exact ⟨index', ca', ⟨d, List.mem_cons_of_mem _ hd, hdx⟩, hkeep _ _ hca', hright'⟩
  refine ⟨index, ca, ⟨_, List.mem_cons_self, ⟨?_, ?_⟩, rfl⟩, hca,
    hcovers.right T (i + k) c code (by omega) hge hk hx hcode hright⟩
  · have hlo := (low_le_high h (by omega) hci hk).1; exact hlo.trans hx.1
  · have hhi := (low_le_high h hge hk hcj).2; exact hx.2.trans hhi

theorem getClusterIndex_spec (actOf : ℕ) (t : List (ClusterAct arg act)) :
    (getClusterIndex actOf t).2[(getClusterIndex actOf t).1]? = some (.action actOf) ∧
      ∀ (n : ℕ) ca, t[n]? = some ca → (getClusterIndex actOf t).2[n]? = some ca := by
  unfold getClusterIndex
  split
  · rename_i i hfind
    obtain ⟨hi, heq, -⟩ := List.findIdx?_eq_some_iff_getElem.1 hfind
    refine ⟨?_, fun n ca hn => hn⟩
    rw [List.getElem?_eq_getElem hi]
    cases hti : t[i] with
    | action index => rw [hti] at heq; simpa using heq
    | switch code => rw [hti] at heq; simp at heq
  refine ⟨by simp, fun n ca hn => ?_⟩
  rw [List.getElem?_append_left (List.getElem?_eq_some_iff.1 hn).1]
  exact hn

theorem addCluster_spec (h : WellFormed cases) (hdef : Defined actions cases)
    (hs : Built S cases actions (j + 1) (ir + 1) s)
    (hij : i ≤ j)    (hj : j < cases.length) (hnarrow : Narrow cases i j) (hir : ir < s.r.length) :
    ∃ s', addCluster A cases actions i j (ir : ℤ) s = .ok s' ∧ s'.r.length = s.r.length ∧
      Built S cases actions i ir s' := by
  have hci : cases[i]? = some cases[i] := List.getElem?_eq_getElem (by omega)
  have hcj : cases[j]? = some cases[j] := List.getElem?_eq_getElem hj
  rcases eq_or_ne i j with rfl | hne
  · obtain ⟨hidx, hkeep⟩ := getClusterIndex_spec cases[i].act s.t
    refine ⟨_, ?_, ?_, hs.push h le_rfl hci hci hir hidx hkeep (covers_action hdef hci)⟩
    · simp [addCluster, get_eq hci, set_eq hir, bind, Except.bind, pure, Except.pure]
    · simp
  have hlt : cases[j].high - cases[i].low < 2 ^ 61 := by
    rcases hnarrow with heq | ⟨c, d, hc, hd, hlt⟩
    · exact absurd heq hne
    rw [hci] at hc
    rw [hcj] at hd
    injection hc with hc
    injection hd with hd
    rwa [← hc, ← hd] at hlt
  obtain ⟨f, hf, htotal, hright⟩ := makeSwitch_spec (S := S) h hdef hij hci hcj hlt
  have hcovers : Covers S cases actions i j (.switch f) := ⟨htotal, hright⟩
  have hkeep : ∀ (n : ℕ) ca, s.t[n]? = some ca → (s.t ++ [ClusterAct.switch f])[n]? = some ca := by
    intro n ca hn
    rw [List.getElem?_append_left (List.getElem?_eq_some_iff.1 hn).1]
    exact hn
  have hca : (s.t ++ [ClusterAct.switch f])[s.t.length]? = some (.switch f) := by simp
  refine ⟨_, ?_, ?_, hs.push h hij hci hcj hir hca hkeep hcovers⟩
  · simp [addCluster, if_neg hne, get_eq hci, get_eq hcj, hf, set_eq hir, bind, Except.bind, pure, Except.pure]
  · simp

/-- All clusters are made, from the last to the first. -/
theorem clusterZyva_spec (h : WellFormed cases) (hdef : Defined actions cases)
    (hrows : Rows cases cases.length (minClusters, k)) {fuel : ℕ} (hfuel : j < fuel)
      (hj : j < cases.length)
    (hmin : minClusters[j]? = some (ir + 1)) (hir : ir < s.r.length)
    (hs : Built S cases actions (j + 1) (ir + 1) s) :
    ∃ s', clusterZyva A cases actions k fuel j (ir : ℤ) s = .ok s' ∧
      s'.r.length = s.r.length ∧ Built S cases actions 0 0 s' := by
  induction fuel generalizing j ir s with
  | zero => omega
  | succ fuel ih =>
    obtain ⟨i, m, hij, -, hk, hmin', hbefore, hnarrow⟩ := hrows.filled j hj
    rw [hmin] at hmin'
    obtain rfl : ir = m := by
      injection hmin' with hmin'
      omega
    obtain ⟨s', hrun, hlen, hs'⟩ := addCluster_spec (A := A) h hdef hs hij hj hnarrow hir
    have hunfold : clusterZyva A cases actions k (fuel + 1) j (ir : ℤ) s =
        if 0 < i then clusterZyva A cases actions k fuel (i - 1) ((ir : ℤ) - 1) s' else .ok s' := by
      rw [clusterZyva, get_eq hk]
      simp only [bind, Except.bind, hrun]
      rfl
    rw [hunfold]
    rcases hbefore with ⟨rfl, rfl⟩ | ⟨i', rfl, hmini⟩
    · exact ⟨s', if_neg (by omega), hlen, hs'⟩
    -- the entry before the cluster counts the clusters before it
    obtain ⟨j', m', -, -, -, hmin'', -, -⟩ := hrows.filled i' (by omega)
    rw [hmini] at hmin''
    injection hmin'' with hmin''
    subst hmin''
    rw [if_pos (by omega)]
    obtain ⟨s'', hrun', hlen', hs''⟩ := ih (s := s') (by omega) (by omega) hmini (by omega) hs'
    refine ⟨s'', ?_, by omega, hs''⟩
    rw [← hrun']
    congr 1
    omega

theorem makeClusters_spec (h : WellFormed cases) (hdef : Defined actions cases)
    (hrows : Rows cases cases.length (minClusters, k))
    (hn : minClusters[cases.length - 1]? = some n) :
    ∃ r acts, makeClusters A cases actions n k = .ok (r, acts) ∧
      ∀ T : Target S, Within cases T.low T.high → T.Fits acts r ∧
        ∀ a code, Picks cases T.x a → actions[a]? = some code → (∀ ρ, S.run ρ code = T.outcome ρ) →
          ∃ index f, Picks r T.x index ∧ acts[index]? = some f ∧ T.Right f := by
  have hpos := List.length_pos_iff.2 h.ne_nil
  have hsize := h.size
  obtain ⟨j, m, hj, hm, -, hmin, -, -⟩ := hrows.filled (cases.length - 1) (by omega)
  rw [hn] at hmin
  injection hmin with hmin
  subst hmin
  have hstart : Built S cases actions (cases.length - 1 + 1) (m + 1)
      (⟨replicate (m + 1) ⟨0, 0, 0⟩, []⟩ : Clusters arg act) := by
    refine ⟨?_, by simp, fun low high _ => by simp [Within], by simp, ?_⟩
    · rw [List.drop_of_length_le (by simp)]; exact ⟨by simp, .nil⟩
    rintro T a code ⟨c, hc, -⟩
    rw [show cases.length - 1 + 1 = cases.length by omega] at hc
    simp at hc
  obtain ⟨s, hrun, hlen, hs⟩ := clusterZyva_spec (A := A) h hdef hrows
    (show cases.length - 1 < cases.length by omega) (by omega) hn (by simp) hstart
  refine ⟨s.r, s.t.map (clusterCode actions), ?_, fun T hT => ⟨⟨?_, ?_, ?_, ?_, ?_⟩, ?_⟩⟩
  · have hlast : ((m + 1 : ℕ) : ℤ) - 1 = m := by omega
    unfold makeClusters
    rw [hlast, hrun]
    rfl
  · exact List.ne_nil_of_length_pos (by rw [hlen]; simp)
  · rw [hlen]
    simp
    omega
  · exact hs.ascending
  · exact hs.within _ _ hT
  · intro d hd
    obtain ⟨ca, hca, htotal⟩ := hs.total d hd
    exact ⟨_, by rw [List.getElem?_map, hca]; rfl, htotal⟩
  intro a code ha hcode hright
  obtain ⟨index, ca, hpick, hca, hca'⟩ := hs.right T a code ha hcode hright
  exact ⟨index, _, hpick, by rw [List.getElem?_map, hca]; rfl, hca'⟩

end Oxcaml.Lambda.Switch
