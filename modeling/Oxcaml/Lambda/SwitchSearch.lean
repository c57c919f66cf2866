/-
Oxcaml.Lambda.SwitchSearch — the tests that the search of `switch.ml` chooses.

The table keeps a choice under a key that is only the shape of the cases: which of them
have one value, which have the same action, and where there are gaps. `Suits` says
what a choice needs to be used for some cases. It depends on their shape alone, so a
choice that was made for other cases, in an earlier call, suits too (`suits_of_makeKey`).

The search is total and what it returns suits (`optCount_returns`): the cost of a cut
is less than the number of cases, so that the start value of the loops is never kept.
-/
import Oxcaml.Lib.StateRules
import Oxcaml.Lambda.Switch

set_option linter.all false

namespace Oxcaml.Lambda.Switch

open Lib (Span Returns)

/-! ## §1 Arrays -/

section Arrays

variable {α : Type} {a : List α}

theorem get_eq {n : ℕ} {x : α} (h : a[n]? = some x) : get a (n : ℤ) = .ok x := by
  simp [get, h, pure, Except.pure]

theorem set_eq {n : ℕ} (h : n < a.length) (x : α) : set a (n : ℤ) x = .ok (a.set n x) := by
  simp [set, h, pure, Except.pure]

theorem sub_eq (a : List α) (ofs len : ℕ) (h : ofs + len ≤ a.length) :
    sub a (ofs : ℤ) (len : ℤ) = .ok ((a.drop ofs).take len) := by
  have hn : ¬((ofs : ℤ) < 0 ∨ (len : ℤ) < 0 ∨ (a.length : ℤ) < ofs + len) := by omega
  simp only [sub, hn, if_false]
  rfl

variable {cases : List Case}

theorem coupe_eq {i : ℕ} {c : Case} (hc : cases[i]? = some c) :
    coupe cases (i : ℤ) = .ok (c.low, cases.take i, cases.drop i) := by
  obtain ⟨hi, -⟩ := List.getElem?_eq_some_iff.1 hc
  have hleft : sub cases 0 (i : ℤ) = .ok (cases.take i) := by
    have h := sub_eq cases 0 i (by omega)
    simpa using h
  have hright : sub cases (i : ℤ) (cases.length - i) = .ok (cases.drop i) := by
    have h := sub_eq cases i (cases.length - i) (by omega)
    rw [Nat.cast_sub hi.le] at h
    rw [h, List.take_of_length_le (by simp)]
  simp only [coupe, get_eq hc, hleft, hright, bind, Except.bind, pure, Except.pure]

theorem coupeInter_eq {i j : ℕ} {ci cj : Case} (hi : cases[i]? = some ci)
    (hj : cases[j]? = some cj) (hij : i ≤ j) :
    coupeInter (i : ℤ) (j : ℤ) cases = .ok (ci.low, cj.high, (cases.drop i).take (j + 1 - i),
      caseAppend (cases.take i) (cases.drop (j + 1))) := by
  obtain ⟨hjl, -⟩ := List.getElem?_eq_some_iff.1 hj
  have hinside : sub cases (i : ℤ) ((j : ℤ) - i + 1) = .ok ((cases.drop i).take (j + 1 - i)) := by
    have h := sub_eq cases i (j + 1 - i) (by omega)
    rw [← h]
    congr 1
    omega
  have hbefore : sub cases 0 (i : ℤ) = .ok (cases.take i) := by
    have h := sub_eq cases 0 i (by omega)
    simpa using h
  have hafter : sub cases ((j : ℤ) + 1) (cases.length - ((j : ℤ) + 1)) =
      .ok (cases.drop (j + 1)) := by
    have h := sub_eq cases (j + 1) (cases.length - (j + 1)) (by omega)
    rw [List.take_of_length_le (by simp)] at h
    rw [← h]
    congr 1
    omega
  simp [coupeInter, get_eq hi, get_eq hj, hinside, hbefore, hafter, bind, Except.bind, pure, Except.pure]

/-- Gluing two lists takes away one case at most. -/
theorem length_caseAppend (c1 c2 : List Case) :
    (caseAppend c1 c2).length ≤ c1.length + c2.length := by
  rcases List.eq_nil_or_concat c1 with rfl | ⟨l1, c, rfl⟩
  · cases c2 <;> simp [caseAppend]
  cases c2 with
  | nil => simp [caseAppend]
  | cons d rest =>
    simp only [caseAppend, List.concat_eq_append, List.getLast?_concat]
    split_ifs <;> simp <;> lia

theorem caseAppend_ne_nil {c1 : List Case} (h : c1 ≠ []) (c2 : List Case) :
    caseAppend c1 c2 ≠ [] := by
  rcases List.eq_nil_or_concat c1 with rfl | ⟨l1, c, rfl⟩
  · exact absurd rfl h
  cases c2 with
  | nil => simp [caseAppend]
  | cons d rest =>
    simp only [caseAppend, List.concat_eq_append, List.getLast?_concat]
    split_ifs <;> simp

end Arrays

/-! ## §2 Shapes -/

/-- The numbers of the actions are distinct. -/
structure Numbered (seen : Seen) : Prop where
  inj : ∀ p ∈ seen, ∀ q ∈ seen, p.1 = q.1 ↔ p.2 = q.2
  lt : ∀ p ∈ seen, p.2 < seen.length

theorem numbered_nil : Numbered [] := ⟨by simp, by simp⟩

/-- An action that is asked for has its number in the list, which keeps what it had. -/
theorem gotIt_spec {seen : Seen} (h : Numbered seen) (act : ℕ) :
    Numbered (gotIt act seen).2 ∧ (act, (gotIt act seen).1) ∈ (gotIt act seen).2 ∧
      ∀ p ∈ seen, p ∈ (gotIt act seen).2 := by
  unfold gotIt
  cases hfind : seen.find? fun p => p.1 = act with
  | some p =>
    have hp : p.1 = act := by simpa using List.find?_some hfind
    have hmem := List.mem_of_find?_eq_some hfind
    refine ⟨h, ?_, fun q hq => hq⟩
    simpa [← hp] using hmem
  | none =>
    have hnew : ∀ p ∈ seen, p.1 ≠ act := by simpa using List.find?_eq_none.1 hfind
    refine ⟨⟨?_, ?_⟩, by simp, fun q hq => List.mem_cons_of_mem _ hq⟩
    · intro p hp q hq
      rcases List.mem_cons.1 hp with rfl | hp <;> rcases List.mem_cons.1 hq with rfl | hq
      · simp
      · have hlt := h.lt q hq
        have hne := hnew q hq
        constructor <;> intro heq
        · exact absurd heq.symm hne
        · omega
      · have hlt := h.lt p hp
        have hne := hnew p hp
        constructor <;> intro heq
        · exact absurd heq hne
        · omega
      · exact h.inj p hp q hq
    intro p hp
    rcases List.mem_cons.1 hp with rfl | hp
    · simp
    have hlt := h.lt p hp
    simp only [List.length_cons]
    omega

/-- The kind of a case, given the number of its action. -/
def Kind.of (c : Case) (index : ℕ) : Kind := if c.low = c.high then .value index else .inter index

/-- The kinds of a list of cases, without the gaps, agree with the numbers of the actions. -/
def Describes (seen : Seen) (kinds : List Kind) (cases : List Case) : Prop :=
  List.Forall₂ (fun kind c => ∃ index, (c.act, index) ∈ seen ∧ kind = Kind.of c index) kinds cases

variable {cases : List Case}

theorem Describes.mono {seen seen' : Seen} {kinds : List Kind}
    (h : Describes seen kinds cases) (hseen : ∀ p ∈ seen, p ∈ seen') :
    Describes seen' kinds cases :=
  List.Forall₂.imp (fun _ _ ⟨index, hmem, hkind⟩ => ⟨index, hseen _ hmem, hkind⟩) h

/-- The key without the gaps. -/
def solid (key : List Kind) : List Kind := key.filter (· ≠ .empty)

theorem solid_cons_of (c : Case) (index : ℕ) (tail : List Kind) :
    solid (Kind.of c index :: tail) = Kind.of c index :: solid tail := by
  unfold solid Kind.of
  split_ifs <;> simp

theorem makeOne_eq (c : Case) (seen : Seen) :
    makeOne c seen = (Kind.of c (gotIt c.act seen).1, (gotIt c.act seen).2) := rfl

theorem makeRec_spec (rem : List Case) (pl : ℤ) : Numbered (makeRec rem pl).2 ∧
      Describes (makeRec rem pl).2 (solid (makeRec rem pl).1) rem := by
  induction rem generalizing pl with
  | nil => exact ⟨numbered_nil, .nil⟩
  | cons c rem ih =>
    obtain ⟨hnum, hdesc⟩ := ih c.low
    obtain ⟨hnum', hmem, hkeep⟩ := gotIt_spec hnum c.act
    simp only [makeRec, makeOne_eq]
    refine ⟨hnum', ?_⟩
    have hall : Describes (gotIt c.act (makeRec rem c.low).2).2
        (Kind.of c (gotIt c.act (makeRec rem c.low).2).1 :: solid (makeRec rem c.low).1)
        (c :: rem) := .cons ⟨_, hmem, rfl⟩ (hdesc.mono hkeep)
    split_ifs
    · rw [solid_cons_of]; exact hall
    have hempty : ∀ key, solid (.empty :: key) = solid key := fun key => by simp [solid]
    rw [hempty, solid_cons_of]
    exact hall

variable {key : List Kind}

theorem makeKey_spec (h : makeKey cases = .ok key) :
    ∃ seen, Numbered seen ∧ Describes seen (solid key) cases.reverse := by
  unfold makeKey at h
  cases hrev : cases.reverse with
  | nil => rw [hrev] at h; cases h
  | cons c rem =>
    rw [hrev] at h
    obtain ⟨hnum, hdesc⟩ := makeRec_spec rem c.low
    obtain ⟨hnum', hmem, hkeep⟩ := gotIt_spec hnum c.act
    simp only [makeOne_eq, pure, Except.pure, Except.ok.injEq] at h
    refine ⟨_, hnum', ?_⟩
    rw [← h, solid_cons_of]
    exact .cons ⟨_, hmem, rfl⟩ (hdesc.mono hkeep)

theorem makeKey_ok (h : cases ≠ []) : ∃ key, makeKey cases = .ok key := by
  unfold makeKey
  cases hrev : cases.reverse with
  | nil => exact absurd (List.reverse_eq_nil_iff.1 hrev) h
  | cons c rem => exact ⟨_, rfl⟩

/-- Cases at the same place have one value or not, and their actions have the same number. -/
def SameShape (cases cases' : List Case) : Prop :=
  ∃ seen seen', Numbered seen ∧ Numbered seen' ∧
    List.Forall₂ (fun c c' => (c.low = c.high ↔ c'.low = c'.high) ∧
      ∃ index, (c.act, index) ∈ seen ∧ (c'.act, index) ∈ seen') cases cases'

theorem Kind.of_inj {c c' : Case} {index index' : ℕ} (h : Kind.of c index = Kind.of c' index') :
    (c.low = c.high ↔ c'.low = c'.high) ∧ index = index' := by
  unfold Kind.of at h
  split_ifs at h with h1 h2 <;> simp_all

theorem sameShape_of_makeKey {cases cases' : List Case}
    (h : makeKey cases = .ok key) (h' : makeKey cases' = .ok key) : SameShape cases cases' := by
  obtain ⟨seen, hnum, hdesc⟩ := makeKey_spec h
  obtain ⟨seen', hnum', hdesc'⟩ := makeKey_spec h'
  refine ⟨seen, seen', hnum, hnum', ?_⟩
  rw [← List.forall₂_reverse_iff]
  generalize solid key = kinds at hdesc hdesc'
  generalize cases.reverse = l at hdesc ⊢
  generalize cases'.reverse = l' at hdesc' ⊢
  induction hdesc generalizing l' with
  | nil => cases hdesc'; exact .nil
  | cons hhead _ ih =>
    cases hdesc' with
    | cons hhead' htail' =>
      obtain ⟨index, hmem, rfl⟩ := hhead
      obtain ⟨index', hmem', heq⟩ := hhead'
      obtain ⟨hval, rfl⟩ := Kind.of_inj heq
      exact .cons ⟨hval, index, hmem, hmem'⟩ (ih _ htail')

/-! ## §3 Choices -/

/-- The test can be used for the cases. -/
def TRet.Suits (okInter : Bool) (cases : List Case) : TRet → Prop
  | .no => ∀ c ∈ cases, ∀ d ∈ cases, c.act = d.act
  | .sep i => ∃ n : ℕ, i = n ∧ 1 ≤ n ∧ n < cases.length
  | .inter i j => ∃ m n : ℕ, i = m ∧ j = n ∧ 1 ≤ m ∧ m ≤ n ∧ n + 1 < cases.length ∧
      (okInter = true ∨ m = n ∧ ∃ c, cases[m]? = some c ∧ c.low = c.high)

/-- The costs are less than the number of cases. -/
structure Cheap (size : ℕ) (c : CTests × CTests) : Prop where
  worst : c.1.n < size
  all : c.2.n < size

structure Suits (okInter : Bool) (cases : List Case) (r : Ret) : Prop where
  test : r.1.Suits okInter cases
  cheap : Cheap cases.length r.2

variable {okInter : Bool} {r : Ret}

theorem SameShape.suits {cases cases' : List Case} (h : SameShape cases cases')
    (hr : Suits okInter cases r) : Suits okInter cases' r := by
  obtain ⟨seen, seen', hnum, hnum', hall⟩ := h
  have hlen := hall.length_eq
  obtain ⟨htest, hcheap⟩ := hr
  refine ⟨?_, hlen ▸ hcheap⟩
  obtain ⟨w, costs⟩ := r
  cases w with
  | no =>
    intro c' hc' d' hd'
    obtain ⟨i, hi⟩ := List.mem_iff_getElem?.1 hc'
    obtain ⟨j, hj⟩ := List.mem_iff_getElem?.1 hd'
    have hrow : ∀ (k : ℕ) e', cases'[k]? = some e' →
        ∃ e ∈ cases, ∃ index, (e.act, index) ∈ seen ∧ (e'.act, index) ∈ seen' := by
      intro k e' he'
      obtain ⟨hk', rfl⟩ := List.getElem?_eq_some_iff.1 he'
      have hk : k < cases.length := by omega
      exact ⟨cases[k], List.getElem_mem hk, (hall.get hk hk').2⟩
    obtain ⟨c, hc, index, hc1, hc2⟩ := hrow i c' hi
    obtain ⟨d, hd, index', hd1, hd2⟩ := hrow j d' hj
    have hact : c.act = d.act := htest c hc d hd
    have hindex : index = index' := (hnum.inj _ hc1 _ hd1).1 hact
    exact (hnum'.inj _ hc2 _ hd2).2 hindex
  | sep i => obtain ⟨n, hi, h1, hn⟩ := htest; exact ⟨n, hi, h1, by omega⟩
  | inter i j =>
    obtain ⟨m, n, hi, hj, h1, hmn, hn, hok⟩ := htest
    refine ⟨m, n, hi, hj, h1, hmn, by omega, ?_⟩
    rcases hok with hok | ⟨heq, c, hc, hval⟩
    · exact .inl hok
    obtain ⟨hm, rfl⟩ := List.getElem?_eq_some_iff.1 hc
    have hm' : m < cases'.length := by omega
    exact .inr ⟨heq, cases'[m], by simp [hm'], (hall.get hm hm').1.1 hval⟩

/-- All choices in the table suit all cases with their key. -/
def Memo.Valid (memo : Memo) : Prop :=
  ∀ p ∈ memo.t, ∀ cases, makeKey cases = .ok p.1 → Suits memo.okInter cases p.2

/-- The states of a search with the flag. -/
def Inv (okInter : Bool) (memo : Memo) : Prop := memo.Valid ∧ memo.okInter = okInter

theorem inv_cons {memo : Memo} (h : Inv okInter memo) (hkey : makeKey cases = .ok key)
    (hr : Suits okInter cases r) :
    Inv okInter { memo with t := (key, r) :: memo.t } := by
  obtain ⟨hvalid, rfl⟩ := h
  refine ⟨?_, rfl⟩
  intro p hp cases' hcases'
  rcases List.mem_cons.1 hp with rfl | hp
  · exact (sameShape_of_makeKey hkey hcases').suits hr
  · exact hvalid p hp cases' hcases'

theorem mem_of_lookup {t : List (List Kind × Ret)} (h : t.lookup key = some r) : (key, r) ∈ t := by
  induction t with
  | nil => cases h
  | cons p t ih =>
    rw [List.lookup_cons] at h
    cases hk : key == p.1 with
    | true =>
      rw [hk] at h
      injection h with h
      rw [← h, eq_of_beq hk]
      exact List.mem_cons_self
    | false => rw [hk] at h; exact List.mem_cons_of_mem _ (ih h)

/-! ## §4 The search -/

section Search

variable {okInter : Bool} {cases : List Case} {optCount : List Case → M Ret} {size i j : ℕ}

theorem cheap_combine {test : CTests} {c1 c2 : CTests × CTests} {n1 n2 : ℕ}
    (htest : test.n = 1) (h1 : Cheap n1 c1) (h2 : Cheap n2 c2) (hsize : n1 + n2 ≤ size) :
    Cheap size (combine test c1 c2) := by
  obtain ⟨hw1, ha1⟩ := h1
  obtain ⟨hw2, ha2⟩ := h2
  constructor
  · simp only [combine, addTest]; split_ifs <;> simp only [] <;> lia
  · simp only [combine, addTest]; omega

/-- A cheap choice is taken in place of the start value of a loop. -/
theorem less2tests_tooMuch {c : CTests × CTests} (h : Cheap size c)
    (hsize : size ≤ 2 ^ 54) : less2tests c (tooMuch, tooMuch) = true := by
  have hlt : c.1.n < tooMuch.n := by
    have hw := h.worst
    simp only [tooMuch]
    omega
  have hne : c.1.n ≠ tooMuch.n := by omega
  simp [less2tests, eqTests, lessTests, hne, hlt]

/-- The recursive calls of a search. -/
def Searches (okInter : Bool) (cases : List Case) (optCount : List Case → M Ret) : Prop :=
  ∀ l, l ≠ [] → l.length < cases.length → Returns (Inv okInter) (optCount l) (Suits okInter l)

section

variable (hrec : Searches okInter cases optCount)
include hrec

theorem sepCost_returns (h1 : 1 ≤ i)
    (hi : i < cases.length) :
    Returns (Inv okInter) (sepCost optCount cases i) (Cheap cases.length) := by
  have hc : cases[i]? = some cases[i] := List.getElem?_eq_getElem hi
  have hleft : (cases.take i).length = i := by simp; omega
  have hright : (cases.drop i).length = cases.length - i := by simp
  refine .bind (.lift (coupe_eq hc) (Q := (· = _)) rfl) ?_
  rintro _ rfl
  refine .bind (hrec _ (List.ne_nil_of_length_pos (by omega)) (by omega)) fun r1 hr1 => ?_
  refine .bind (hrec _ (List.ne_nil_of_length_pos (by omega)) (by omega)) fun r2 hr2 => ?_
  exact .pure (cheap_combine rfl hr1.cheap hr2.cheap (by omega))

theorem interCost_returns (single : Bool)
    (h1 : 1 ≤ i) (hij : i ≤ j) (hj : j + 1 < cases.length) :
    Returns (Inv okInter) (interCost optCount single cases i j) fun r => ∀ c, r = some c →
      Cheap cases.length c ∧ (single = true → cases[i].low = cases[j].high) := by
  have hci : cases[i]? = some cases[i] := List.getElem?_eq_getElem (by omega)
  have hcj : cases[j]? = some cases[j] := List.getElem?_eq_getElem (by omega)
  have hin : ((cases.drop i).take (j + 1 - i)).length = j + 1 - i := by simp; omega
  have hout := length_caseAppend (cases.take i) (cases.drop (j + 1))
  simp only [List.length_take, List.length_drop] at hout
  have hne : cases.take i ≠ [] := List.ne_nil_of_length_pos (by simp; omega)
  refine .bind (.lift (coupeInter_eq hci hcj hij) (Q := (· = _)) rfl) ?_
  rintro _ rfl
  dsimp only
  split
  · exact .pure fun c hc => (nomatch hc)
  rename_i hsingle
  refine .bind (hrec _ (List.ne_nil_of_length_pos (by omega)) (by omega)) fun r1 hr1 => ?_
  refine .bind (hrec _ (caseAppend_ne_nil hne _) (by omega)) fun r2 hr2 => ?_
  refine .pure fun c hc => ?_
  injection hc with hc
  subst hc
  refine ⟨cheap_combine rfl hr1.cheap hr2.cheap (by omega), ?_⟩
  intro hs
  simpa [hs] using hsingle

theorem divide_returns (hlen : 2 ≤ cases.length) :
    Returns (Inv okInter) (divide optCount cases) fun r =>
      r.1.Suits okInter cases ∧ Cheap cases.length r.2 := by
  refine .bind (sepCost_returns hrec (i := cases.length / 2) (by omega) (by omega)) ?_
  intro c hc
  exact .pure ⟨⟨cases.length / 2, rfl, by omega, by omega⟩, hc⟩

end

/-- An interval test that was found, or the start value. -/
def Found (okInter : Bool) (cases : List Case) (best : (ℤ × ℤ) × (CTests × CTests)) : Prop :=
  best.2 = (tooMuch, tooMuch) ∨
    (TRet.inter best.1.1 best.1.2).Suits okInter cases ∧ Cheap cases.length best.2

/-- The better of a cut and an interval test suits. -/
theorem suits_choose (hsize : cases.length ≤ 2 ^ 54) {sep : TRet} {csep : CTests × CTests}
    (hsep : sep.Suits okInter cases ∧ Cheap cases.length csep) {i j : ℤ}
    {cinter : CTests × CTests} (hinter : Found okInter cases ((i, j), cinter)) :
    Suits okInter cases (if less2tests csep cinter then (sep, csep) else (.inter i j, cinter)) := by
  split_ifs with hless
  · exact ⟨hsep.1, hsep.2⟩
  rcases hinter with hinter | ⟨htest, hcheap⟩
  · subst hinter; exact absurd (less2tests_tooMuch hsep.2 hsize) hless
  · exact ⟨htest, hcheap⟩

theorem heuristic_returns (hrec : Searches okInter cases optCount) (hlen : 3 ≤ cases.length)
    (hsize : cases.length ≤ 2 ^ 54) :
    Returns (Inv okInter) (heuristic optCount cases) (Suits okInter cases) := by
  have hfirst : cases[0]? = some cases[0] := List.getElem?_eq_getElem (by omega)
  have hlast : cases[cases.length - 1]? = some cases[cases.length - 1] :=
    List.getElem?_eq_getElem (by omega)
  have hend : ((cases.length - 1 : ℕ) : ℤ) = cases.length - 1 := by omega
  have hend2 : ((cases.length - 2 : ℕ) : ℤ) = cases.length - 2 := by omega
  refine .bind (divide_returns hrec (by omega)) fun ⟨sep, csep⟩ hsep => ?_
  have hrest : ∀ i j c, Found okInter cases ((i, j), c) → Returns (Inv okInter)
      (pure (if less2tests csep c then (sep, csep) else (.inter i j, c)) : M Ret)
      (Suits okInter cases) :=
    fun i j c hc => .pure (suits_choose hsize hsep hc)
  refine .bind .get fun memo hmemo => ?_
  split
  · rename_i hflag
    refine .bind (.lift (get_eq hfirst) (Q := fun _ => True) trivial) fun first _ => ?_
    refine .bind (.lift (hend ▸ get_eq hlast) (Q := fun _ => True) trivial) fun last _ => ?_
    split
    · have hok : okInter = true := hmemo.2 ▸ hflag
      refine .bind (hend2 ▸ interCost_returns hrec false (i := 1) (j := cases.length - 2) le_rfl
        (by omega) (by omega)) fun r hr => ?_
      cases r with
      | none => exact hrest _ _ _ (.inl rfl)
      | some c =>
        refine hrest _ _ _ (.inr ⟨⟨1, cases.length - 2, rfl, hend2.symm, le_rfl, by omega,
          by omega, .inl hok⟩, (hr c rfl).1⟩)
    · exact hrest _ _ _ (.inl rfl)
  · exact hrest _ _ _ (.inl rfl)

theorem mem_upTo {first last : ℕ} : i ∈ upTo first last ↔ first ≤ i ∧ i ≤ last := by
  unfold upTo
  rw [List.mem_range'_1]
  omega

section

variable (hrec : Searches okInter cases optCount)
include hrec

theorem bestSep_returns (hlen : 2 ≤ cases.length)
    (hsize : cases.length ≤ 2 ^ 54) :
    Returns (Inv okInter) (bestSep optCount cases) fun best =>
      (TRet.sep best.1).Suits okInter cases ∧ Cheap cases.length best.2 := by
  -- the first round replaces the start value
  have hrange : upTo 1 (cases.length - 1) = 1 :: List.range' 2 (cases.length - 2) := by
    unfold upTo
    obtain ⟨n, hn⟩ : ∃ n, cases.length = n + 2 := ⟨cases.length - 2, by omega⟩
    rw [hn]
    simp [List.range'_succ]
  unfold bestSep
  have hmem : ∀ i ∈ 1 :: List.range' 2 (cases.length - 2), 1 ≤ i ∧ i < cases.length := by
    intro i hi
    rw [← hrange, mem_upTo] at hi
    omega
  rw [hrange]
  have hround : ∀ i ∈ 1 :: List.range' 2 (cases.length - 2), ∀ best : ℤ × (CTests × CTests),
      (best.2 = (tooMuch, tooMuch) ∨
        (TRet.sep best.1).Suits okInter cases ∧ Cheap cases.length best.2) →
      Returns (Inv okInter) (do
        let c ← sepCost optCount cases (i : ℤ)
        pure (if less2tests c best.2 then ((i : ℤ), c) else best) : M (ℤ × (CTests × CTests)))
        fun best => (TRet.sep best.1).Suits okInter cases ∧ Cheap cases.length best.2 := by
    intro i hi best hbest
    obtain ⟨h1, hi⟩ := hmem i hi
    refine .bind (sepCost_returns hrec h1 hi) fun c hc => .pure ?_
    have hnew : (TRet.sep (i : ℤ)).Suits okInter cases ∧ Cheap cases.length c :=
      ⟨⟨i, rfl, h1, hi⟩, hc⟩
    split_ifs with hless
    · exact hnew
    rcases hbest with hbest | hbest
    · rw [hbest] at hless; exact absurd (less2tests_tooMuch hc hsize) hless
    · exact hbest
  refine .bind (hround 1 List.mem_cons_self _ (.inl rfl)) fun best hbest => ?_
  exact .foldlM (J := fun _ best => (TRet.sep best.1).Suits okInter cases ∧
    Cheap cases.length best.2) hbest fun i _ best hi hbest =>
      hround i (List.mem_cons_of_mem _ hi) best (.inr hbest)

theorem tryInter_returns (single : Bool)
    {best : (ℤ × ℤ) × (CTests × CTests)} (hbest : Found okInter cases best) (h1 : 1 ≤ i)
      (hij : i ≤ j) (hj : j + 1 < cases.length)
    (hok : okInter = true ∨ single = true ∧ i = j) :
    Returns (Inv okInter) (tryInter optCount single cases best i j) (Found okInter cases) := by
  refine .bind (interCost_returns hrec single h1 hij hj) fun r hr => ?_
  cases r with
  | none => exact .pure hbest
  | some c =>
    obtain ⟨hcheap, hval⟩ := hr c rfl
    refine .pure ?_
    split_ifs
    · refine .inr ⟨⟨i, j, rfl, rfl, h1, hij, hj, ?_⟩, hcheap⟩
      rcases hok with hok | ⟨hs, rfl⟩
      · exact .inl hok
      · exact .inr ⟨rfl, cases[i], List.getElem?_eq_getElem (by omega), hval hs⟩
    · exact hbest

theorem bestInter_returns :
    Returns (Inv okInter) (bestInter optCount cases) (Found okInter cases) := by
  refine .bind .get fun memo hmemo => ?_
  split
  · refine .foldlM (J := fun _ => Found okInter cases) (.inl rfl) fun i _ best hi hbest => ?_
    rw [mem_upTo] at hi
    exact tryInter_returns hrec true hbest hi.1 le_rfl (by omega) (.inr ⟨rfl, rfl⟩)
  rename_i hok
  have hok : okInter = true := by
    rw [← hmemo.2]
    simpa using hok
  refine .foldlM (J := fun _ => Found okInter cases) (.inl rfl) fun i _ best hi hbest => ?_
  refine .foldlM (J := fun _ => Found okInter cases) hbest fun j _ best hj hbest => ?_
  rw [mem_upTo] at hi hj
  exact tryInter_returns hrec false hbest hi.1 hj.1 (by omega) (.inl hok)

theorem enum_returns (hlen : 2 ≤ cases.length)
    (hsize : cases.length ≤ 2 ^ 54) :
    Returns (Inv okInter) (enum optCount cases) (Suits okInter cases) := by
  refine .bind (bestSep_returns hrec hlen hsize) fun ⟨lim, withSep⟩ hsep => ?_
  refine .bind (bestInter_returns hrec) fun ⟨⟨ilow, ihigh⟩, withInter⟩ hinter => ?_
  exact .pure (suits_choose hsize hsep hinter)

end

theorem sameAct_eq {c : Case} (hlast : cases.getLast? = some c) :
    sameAct cases = .ok (cases.dropLast.all fun d => d.act = c.act) := by
  have hc : cases[cases.length - 1]? = some c := by rw [← hlast, List.getLast?_eq_getElem?]
  have hpos : 0 < cases.length := by
    cases cases with
    | nil => cases hlast
    | cons => simp
  have hend : ((cases.length - 1 : ℕ) : ℤ) = cases.length - 1 := by omega
  simp only [sameAct, ← hend, get_eq hc, bind, Except.bind, pure, Except.pure]

theorem search_returns (hrec : Searches okInter cases optCount) (hne : cases ≠ [])
    (hsize : cases.length ≤ 2 ^ 54) :
    Returns (Inv okInter) (search optCount cases) (Suits okInter cases) := by
  have hpos := List.length_pos_iff.2 hne
  obtain ⟨l, c, rfl⟩ := (List.eq_nil_or_concat' cases).resolve_left hne
  unfold search
  rw [if_neg (by omega)]
  refine .bind (.lift (sameAct_eq (c := c) (by simp)) (Q := (· = _)) rfl) ?_
  rintro _ rfl
  rw [List.dropLast_concat]
  split
  · rename_i hsame
    have hall : ∀ d ∈ l ++ [c], d.act = c.act := by
      intro d hd
      rcases List.mem_append.1 hd with hd | hd
      · simpa using List.all_eq_true.1 hsame d hd
      · rw [List.mem_singleton.1 hd]
    exact .pure ⟨fun d hd e he => (hall d hd).trans (hall e he).symm, ⟨hpos, hpos⟩⟩
  rename_i hsame
  have hlen : 2 ≤ (l ++ [c]).length := by
    cases l with
    | nil => simp at hsame
    | cons d l => simp
  split
  · exact enum_returns hrec hlen hsize
  rename_i hsmall
  unfold smallSizeLimit at hsmall
  split
  · exact heuristic_returns hrec (by omega) hsize
  · exact (divide_returns hrec hlen).mono fun r hr => ⟨hr.1, hr.2⟩

end Search

/-- The search is total, and its choice suits, whatever the table has. -/
theorem optCount_returns {fuel : ℕ} (hne : cases ≠ [])
    (hfuel : cases.length ≤ fuel) (hsize : cases.length ≤ 2 ^ 54) :
    Returns (Inv okInter) (optCount fuel cases) (Suits okInter cases) := by
  induction fuel generalizing cases with
  | zero => have hpos := List.length_pos_iff.2 hne; omega
  | succ fuel ih =>
    obtain ⟨key, hkey⟩ := makeKey_ok hne
    unfold optCount
    refine .bind (.lift hkey (Q := (· = key)) rfl) fun key' hkey' => ?_
    rw [hkey']
    refine .bind .get fun memo hmemo => ?_
    cases hfind : memo.t.lookup key with
    | some r =>
      obtain ⟨hvalid, rfl⟩ := hmemo
      exact .pure (hvalid _ (mem_of_lookup hfind) cases hkey)
    | none =>
      have hrec : Searches okInter cases (optCount fuel) :=
        fun l hl hlen => ih hl (by omega) (by omega)
      refine .bind (search_returns hrec hne hsize) fun r hr => ?_
      refine .bind (.modify fun memo hmemo => inv_cons hmemo hkey hr) fun _ _ => ?_
      exact .pure hr

theorem optCountOf_returns (hne : cases ≠ []) (hsize : cases.length ≤ 2 ^ 54) :
    Returns (Inv okInter) (optCountOf cases) (Suits okInter cases) :=
  optCount_returns hne le_rfl hsize

end Oxcaml.Lambda.Switch
