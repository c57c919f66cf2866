/-
Oxcaml.Backend.ZeroAllocUnitRuns — the summaries of a whole unit are sound.

`propagate` goes along the callers of a resolved function. In its first loop the
table already lacks that function, and the callers that are left still mention it;
after the loop the table is exact again (§1). A unit is checked function by function,
in any order (`Reached`). In every state that is reached the table is exact and the
next `check_fun` ends without an error; at the end `record_unit` does, and the
summaries are a post-fixpoint of the bodies (§3).
-/
import Oxcaml.Backend.ZeroAllocTerms

namespace Oxcaml.Backend.ZeroAlloc

open Option (isSome_iff_exists)
open Finset (notMem_empty)
open Lib (getElem?_insert mem_toList)

set_option linter.all false

open Lib (Halts)
open Symbolic (toResolved ofResolved)
open LawfulSymbolic

variable {V ν ω : Type} [LinearOrder ν] [DecidableEq ω] [Symbolic V ν ω] [LawfulSymbolic V]

/-! ## §1 Propagation -/

/-- The table is exact. -/
structure Full (s : State V ν) : Prop where
  names : NamesKept s.unitInfo
  table : Table s.unresolvedDeps (Mentions s.unitInfo)

variable {info : FuncInfo V ν}

theorem calleeLookup_resolved (h : info.value.isResolved = true) (callee : ν) :
    ResolvedLookup (calleeLookup info callee) := by
  intro x w hw
  rw [calleeLookup] at hw
  split at hw
  · cases hw; exact Value.isResolved_iff.1 h x.2
  · cases hw

variable {u : UnitInfo V ν} {callee f n : ν} {calleeInfo : FuncInfo V ν}

/-- The value of a caller, after a resolved callee has gone into it. -/
theorem refines_update {callerInfo : FuncInfo V ν}
    (hcallee : u[callee]? = some calleeInfo) (hresolved : calleeInfo.value.isResolved = true)
    (hcaller : u[callerInfo.name]? = some callerInfo) (hne : callee ≠ callerInfo.name) :
    Refines u (u.update callerInfo (callerInfo.value.apply (calleeLookup calleeInfo callee))) := by
  have hlookup := calleeLookup_resolved hresolved callee
  have hget : ∀ f : ν,
      (u.update callerInfo (callerInfo.value.apply (calleeLookup calleeInfo callee)))[f]? =
        if callerInfo.name = f then
          some ⟨callerInfo.name, callerInfo.value.apply (calleeLookup calleeInfo callee),
            callerInfo.annot⟩
        else u[f]? := fun f => by rw [UnitInfo.update, getElem?_insert]
  have hmeaning : ∀ ρ, AgreesWith
      (u.update callerInfo (callerInfo.value.apply (calleeLookup calleeInfo callee))) ρ → ∀ tag,
        (callerInfo.value.apply (calleeLookup calleeInfo callee)).meaning ρ tag =
          callerInfo.value.meaning ρ tag := by
    intro ρ hρ tag
    rw [Value.meaning_apply hlookup]
    refine Value.meaning_congr (fun x _ => ?_) tag
    rw [withLookup, calleeLookup]
    by_cases hx : x.1 = callee
    · rw [if_pos hx]
      have hcallee' := hρ callee calleeInfo (by rw [hget, if_neg (Ne.symm hne), hcallee]) hresolved
        x.2
      rw [← hx] at hcallee'
      exact hcallee'.symm
    · rw [if_neg hx]
  refine ⟨fun f => ?_, fun ρ hρ f info hinfo hres tag => ?_, ?_, ?_⟩
  · rw [hget]
    split
    · rename_i hf
      rw [← hf, hcaller]
      rfl
    · rfl
  · by_cases hf : callerInfo.name = f
    · subst hf
      rw [hcaller] at hinfo
      cases hinfo
      have hres' : (callerInfo.value.apply (calleeLookup calleeInfo callee)).isResolved = true := by
        rw [← Value.names_eq_empty, Finset.eq_empty_iff_forall_notMem]
        intro n hn
        have hn' := (Value.names_apply hlookup hn).1
        rw [Value.names_eq_empty.2 hres] at hn'
        exact absurd hn' (notMem_empty n)
      rw [hρ callerInfo.name _ (by rw [hget, if_pos rfl]) hres' tag]
      exact hmeaning ρ hρ tag
    · exact hρ f info (by rw [hget, if_neg hf, hinfo]) hres tag
  · intro f info info' hinfo hinfo' n hn
    rw [hget] at hinfo'
    split at hinfo'
    · rename_i hf
      subst hf
      rw [hcaller] at hinfo
      cases hinfo
      cases hinfo'
      exact (Value.names_apply hlookup hn).1
    rw [hinfo] at hinfo'
    cases hinfo'
    exact hn
  intro f info info' hinfo hinfo' ρ hρ tag
  rw [hget] at hinfo'
  split at hinfo'
  · rename_i hf
    subst hf
    rw [hcaller] at hinfo
    cases hinfo
    cases hinfo'
    exact le_of_eq (hmeaning ρ hρ tag).symm
  rw [hinfo] at hinfo'
  cases hinfo'
  exact le_refl _

/-- In the first loop of `propagate`, with the callers that are left. -/
structure Resolving (u₀ : UnitInfo V ν) (K : Finset ν) (callee : ν) (calleeInfo : FuncInfo V ν)
    (left : List ν) (s : State V ν) : Prop where
  names : NamesKept s.unitInfo
  refines : Refines u₀ s.unitInfo
  recorded : s.unitInfo[callee]? = some calleeInfo
  table : Table s.unresolvedDeps fun f c => Mentions s.unitInfo f c ∧ c ≠ callee
  mentions : ∀ f, Mentions s.unitInfo f callee → f ∈ left
  keys : ∀ c : ν, s.unresolvedDeps[c]? ≠ none → c ∈ K

variable {s : State V ν}

theorem resolveCaller_halts {u₀ : UnitInfo V ν} {K : Finset ν} {caller : ν} {left : List ν}
    (hresolved : calleeInfo.value.isResolved = true) (hne : callee ≠ caller)
    (hrecorded : (s.unitInfo[caller]?).isSome)
    (h : Resolving u₀ K callee calleeInfo (caller :: left) s) :
    Halts (fun fuel => resolveCaller fuel calleeInfo callee s caller)
      (Resolving u₀ K callee calleeInfo left) := by
  obtain ⟨callerInfo, hcaller⟩ := isSome_iff_exists.1 hrecorded
  obtain rfl : callerInfo.name = caller := h.names caller callerInfo hcaller
  have hlookup := calleeLookup_resolved hresolved callee
  have hupdate := refines_update h.recorded hresolved hcaller hne
  simp only [resolveCaller, findExn_eq hcaller]
  have hself : (s.unitInfo.update callerInfo
      (callerInfo.value.apply (calleeLookup calleeInfo callee)))[callerInfo.name]? =
      some ⟨callerInfo.name, callerInfo.value.apply (calleeLookup calleeInfo callee),
        callerInfo.annot⟩ := by
    rw [UnitInfo.update, getElem?_insert, if_pos rfl]
  refine (fixpointSelfRec_halts hself).bind ?_
  rintro ⟨u', callees⟩ ⟨hrefines, ⟨info', hinfo', hname', hcallees⟩, hothers⟩
  dsimp only at hrefines hinfo' hcallees hothers hname' ⊢
  have hother : ∀ f : ν, f ≠ callerInfo.name → u'[f]? = s.unitInfo[f]? := by
    intro f hf
    rw [hothers f hf, UnitInfo.update, getElem?_insert, if_neg (Ne.symm hf)]
  -- the callees that are left are callees of before, without the resolved one
  have hsub : ∀ c ∈ callees, Mentions s.unitInfo callerInfo.name c ∧ c ≠ callee := by
    intro c hc
    rw [hcallees] at hc
    have hnew := hrefines.names _ _ _ hself hinfo' hc
    obtain ⟨hold, tag, hnone⟩ := Value.names_apply hlookup hnew
    refine ⟨⟨callerInfo, hcaller, hold⟩, ?_⟩
    rintro rfl
    simp [calleeLookup] at hnone
  have hmentions : ∀ f c, Mentions u' f c ↔
      if f = callerInfo.name then c ∈ callees else Mentions s.unitInfo f c := by
    intro f c
    split
    · rename_i hf
      rw [hf, Mentions, hinfo', hcallees]
      simp
    · rename_i hf
      rw [Mentions, hother f hf, Mentions]
  obtain ⟨deps', hdeps, htable, hkeys⟩ := h.table.update hsub
  rw [hdeps]
  refine .pure ⟨?_, (h.refines.trans hupdate).trans hrefines, ?_, ?_, ?_, ?_⟩
  · intro f info hinfo
    by_cases hf : f = callerInfo.name
    · subst hf
      rw [hinfo'] at hinfo
      cases hinfo
      exact hname'
    · rw [hother f hf] at hinfo; exact h.names f info hinfo
  · rw [hother callee hne]; exact h.recorded
  · refine htable.congr fun f c => ?_
    rw [hmentions]
    by_cases hf : f = callerInfo.name
    · simp only [hf, true_imp_iff]
      exact ⟨fun hr => ⟨hr.2, hr.1.2⟩, fun hr => ⟨hsub c hr.1, hr.1⟩⟩
    · simp [hf]
  · intro f hf
    rw [hmentions] at hf
    split at hf
    · exact absurd rfl (hsub callee hf).2
    rename_i hne'
    have hleft := h.mentions f hf
    rw [List.mem_cons] at hleft
    exact hleft.resolve_left hne'
  · exact fun c hc => h.keys c (hkeys c hc)

theorem propagate_halts (K : Finset ν) : ∀ (s : State V ν) (callee : ν), Full s →
    (∀ c : ν, s.unresolvedDeps[c]? ≠ none → c ∈ K) → (s.unitInfo[callee]?).isSome →
    Halts (fun fuel => propagate fuel callee s) fun s' => Full s' ∧
      Refines s.unitInfo s'.unitInfo ∧ ∀ c : ν, s'.unresolvedDeps[c]? ≠ none → c ∈ K := by
  induction K using Finset.strongInduction with
  | H K ih =>
    intro s callee hfull hK hrecorded
    obtain ⟨calleeInfo, hcallee⟩ := isSome_iff_exists.1 hrecorded
    have hunfold : ∀ fuel, propagate (fuel + 1) callee s =
        if calleeInfo.value.isResolved && s.unresolvedDeps.contains callee then do
          let callers ← s.unresolvedDeps.getCallers callee
          assertUnit (!decide (callers = ∅))
          let unresolvedDeps ← s.unresolvedDeps.remove callee
          let s ← (callers.sort (· ≤ ·)).foldlM (resolveCaller fuel calleeInfo callee)
            { s with unresolvedDeps := unresolvedDeps }
          (callers.sort (· ≤ ·)).foldlM (fun s caller => propagate fuel caller s) s
        else pure s := by
      intro fuel
      rw [propagate, findExn_eq hcallee]
      rfl
    refine .of_succ ?_
    simp only [hunfold]
    by_cases hcond : (calleeInfo.value.isResolved && s.unresolvedDeps.contains callee) = true
    · simp only [hcond]
      rw [Bool.and_eq_true] at hcond
      obtain ⟨hresolved, hcontains⟩ := hcond
      have hkey : s.unresolvedDeps[callee]? ≠ none := by
        rw [UnresolvedDependencies.contains,
          Std.ExtTreeMap.contains_eq_isSome_getElem?] at hcontains
        exact Option.ne_none_iff_isSome.2 hcontains
      obtain ⟨callers, hcallers⟩ := Option.ne_none_iff_exists'.1 hkey
      have hget : s.unresolvedDeps.getCallers callee = .ok callers := by
        rw [UnresolvedDependencies.getCallers, hcallers]
        rfl
      have hmentions := hfull.table.mem_callers hcallers
      have hnothing : ∀ c, ¬ Mentions s.unitInfo callee c := by
        rintro c ⟨info, hinfo, hc⟩
        rw [hcallee] at hinfo
        cases hinfo
        rw [Value.names_eq_empty.2 hresolved] at hc
        exact notMem_empty c hc
      have hnotself : ∀ caller ∈ callers, callee ≠ caller := by
        rintro caller hin rfl
        exact hnothing _ ((hmentions _).1 hin)
      obtain ⟨hremove, htable⟩ := hfull.table.remove hkey hnothing
      rw [hget]
      change Halts (fun fuel => do
        assertUnit (!decide (callers = ∅))
        let unresolvedDeps ← s.unresolvedDeps.remove callee
        let s ← (callers.sort (· ≤ ·)).foldlM (resolveCaller fuel calleeInfo callee)
          { s with unresolvedDeps := unresolvedDeps }
        (callers.sort (· ≤ ·)).foldlM (fun s caller => propagate fuel caller s) s) _
      rw [assertUnit_true (by simpa using hfull.table.nonempty callee callers hcallers), hremove]
      have hstart : Resolving s.unitInfo (K.erase callee) callee calleeInfo
          (callers.sort (· ≤ ·)) { s with unresolvedDeps := s.unresolvedDeps.erase callee } := by
        refine ⟨hfull.names, .refl _, hcallee, htable, fun f hf => ?_, fun c hc => ?_⟩
        · rw [Finset.mem_sort]; exact (hmentions f).2 hf
        rw [Lib.getElem?_erase] at hc
        split at hc
        · exact absurd rfl hc
        · rename_i hne
          exact Finset.mem_erase.2 ⟨Ne.symm hne, hK c hc⟩
      have hcallersRecorded : ∀ caller ∈ callers, (s.unitInfo[caller]?).isSome := by
        intro caller hin
        obtain ⟨info, hinfo, -⟩ := (hmentions caller).1 hin
        rw [hinfo]
        rfl
      have hloop : Halts (fun fuel => (callers.sort (· ≤ ·)).foldlM
          (resolveCaller fuel calleeInfo callee)
          { s with unresolvedDeps := s.unresolvedDeps.erase callee })
          (Resolving s.unitInfo (K.erase callee) callee calleeInfo []) := by
        refine Halts.foldlM hstart fun caller rest s' hin hs' => ?_
        have hin' : caller ∈ callers := by simpa using hin
        refine resolveCaller_halts hresolved (hnotself caller hin') ?_ hs'
        rw [hs'.refines.domain]
        exact hcallersRecorded caller hin'
      refine hloop.bind fun s₁ hs₁ => ?_
      -- the table is exact again
      have hfull₁ : Full s₁ := by
        refine ⟨hs₁.names, hs₁.table.congr fun f c => ⟨fun hr => hr.1, fun hr => ⟨hr, ?_⟩⟩⟩
        rintro rfl
        exact absurd (hs₁.mentions f hr) (List.not_mem_nil)
      have hcalleeK : callee ∈ K := hK callee hkey
      have hrest := Halts.foldlM (l := callers.sort (· ≤ ·)) (b := s₁)
        (g := fun fuel (s : State V ν) caller => propagate fuel caller s)
        (I := fun _ (s' : State V ν) => Full s' ∧ Refines s.unitInfo s'.unitInfo ∧
          ∀ c : ν, s'.unresolvedDeps[c]? ≠ none → c ∈ K.erase callee)
        ⟨hfull₁, hs₁.refines, hs₁.keys⟩ ?_
      · refine hrest.mono ?_
        rintro s' ⟨hfull', hrefines', hkeys'⟩
        exact ⟨hfull', hrefines', fun c hc => Finset.mem_of_mem_erase (hkeys' c hc)⟩
      rintro caller rest s' hin ⟨hfull', hrefines', hkeys'⟩
      have hrecorded' : (s'.unitInfo[caller]?).isSome := by
        rw [hrefines'.domain]
        exact hcallersRecorded caller (by simpa using hin)
      refine (ih (K.erase callee) (Finset.erase_ssubset hcalleeK) s' caller hfull' hkeys'
        hrecorded').mono ?_
      rintro s'' ⟨hfull'', hrefines'', hkeys''⟩
      exact ⟨hfull'', hrefines'.trans hrefines'', hkeys''⟩
    · simp only [hcond]; exact .pure ⟨hfull, .refl _, hK⟩

/-! ## §2 Checking a function -/

/-- The unit with one more function. -/
theorem mentions_insert (hf : u[f]? = none) (g c : ν) : Mentions (u.insert f info) g c ↔
      Mentions u g c ∨ (g = f ∧ c ∈ info.value.getUnresolvedNames) := by
  rw [Mentions, getElem?_insert, Mentions]
  by_cases hg : f = g
  · subst hg; simp [hf]
  · simp [hg, Ne.symm hg]

theorem agreesWith_insert (hf : u[f]? = none)
    {ρ : Var ν → Level} (h : AgreesWith (u.insert f info) ρ) : AgreesWith u ρ := by
  intro g info' hg hres tag
  refine h g info' ?_ hres tag
  rw [getElem?_insert, if_neg, hg]
  rintro rfl
  rw [hf] at hg
  cases hg

theorem addUnresolvedDependencies_halts
    (hfull : Full s) (hf : s.unitInfo[f]? = none) (hname : info.name = f) :
    Halts (fun fuel => addUnresolvedDependencies fuel f
        { s with unitInfo := s.unitInfo.insert f info }) fun s' =>
      Full s' ∧ Refines (s.unitInfo.insert f info) s'.unitInfo := by
  subst hname
  have hget : (s.unitInfo.insert info.name info)[info.name]? = some info := by
    rw [getElem?_insert, if_pos rfl]
  simp only [addUnresolvedDependencies, findExn_eq hget]
  refine (fixpointSelfRec_halts hget).bind ?_
  rintro ⟨u', callees⟩ ⟨hrefines, ⟨info', hinfo', hname', hcallees⟩, hothers⟩
  dsimp only at hrefines hinfo' hname' hcallees hothers ⊢
  have hother : ∀ g : ν, g ≠ info.name → u'[g]? = s.unitInfo[g]? := by
    intro g hg
    rw [hothers g hg, getElem?_insert, if_neg (Ne.symm hg)]
  have hmentions : ∀ g c, Mentions u' g c ↔
      Mentions s.unitInfo g c ∨ (g = info.name ∧ c ∈ callees) := by
    intro g c
    by_cases hg : g = info.name
    · subst hg
      rw [Mentions, Mentions, hinfo', hf, hcallees]
      simp
    · rw [Mentions, hother g hg, Mentions]; simp [hg]
  have hnothing : ∀ c, ¬ Mentions s.unitInfo info.name c := by
    rintro c ⟨info'', hinfo'', -⟩
    rw [hf] at hinfo''
    cases hinfo''
  have hnames : NamesKept u' := by
    intro g infog hg
    by_cases hgf : g = info.name
    · subst hgf
      rw [hinfo'] at hg
      cases hg
      exact hname'
    · rw [hother g hgf] at hg; exact hfull.names g infog hg
  have hrest : ∀ deps' : UnresolvedDependencies ν, Table deps' (Mentions u') →
      Halts (fun fuel => propagate fuel info.name ⟨u', deps'⟩) fun s' =>
        Full s' ∧ Refines (s.unitInfo.insert info.name info) s'.unitInfo := by
    intro deps' htable
    refine (propagate_halts deps'.keys.toFinset ⟨u', deps'⟩ info.name ⟨hnames, htable⟩
      (fun c hc => ?_) (by rw [hinfo']; rfl)).mono ?_
    · rw [List.mem_toFinset, Std.ExtTreeMap.mem_keys, Std.ExtTreeMap.mem_iff_isSome_getElem?]
      exact Option.ne_none_iff_isSome.1 hc
    · rintro s' ⟨hfull', hrefines', -⟩; exact ⟨hfull', hrefines.trans hrefines'⟩
  by_cases hempty : callees = ∅
  · simp only [if_pos hempty]
    refine hrest s.unresolvedDeps (hfull.table.congr fun g c => ?_)
    rw [hmentions, hempty]
    simp
  simp only [if_neg hempty]
  obtain ⟨deps', hadd, htable⟩ := hfull.table.add hnothing callees
  rw [hadd]
  exact hrest deps' (htable.congr fun g c => (hmentions g c).symm)

/-- A callee is unresolved only when it is yet to be checked, or recorded. -/
theorem names_findCallee {t : Context V ν} {k : Hint → ω}
    (h : n ∈ (findCallee t callee k).getUnresolvedNames) :
    n ∈ t.futureFuncnames ∨ (t.unitInfo[n]?).isSome := by
  have htop : ∀ w, n ∉ (Value.top w : Value V).getUnresolvedNames := by
    intro w
    rw [Value.names_eq_empty.2 (Value.top_isResolved w)]
    exact notMem_empty n
  have hresolved : ∀ (v : Value V) w, v.isResolved = true →
      n ∉ (v.replaceWitnesses w).getUnresolvedNames := by
    intro v w hv hn
    obtain ⟨tag, hn⟩ := Value.mem_names.1 hn
    have hsame : (v.replaceWitnesses w).getComponent tag =
        Symbolic.replaceWitnesses w (v.getComponent tag) := by cases tag <;> rfl
    rw [hsame, names_replaceWitnesses] at hn
    have hempty := Value.names_eq_empty.2 hv
    have hin := Value.mem_names.2 ⟨tag, hn⟩
    rw [hempty] at hin
    exact notMem_empty n hin
  have hunresolved : ∀ w, n ∈ (Value.unresolved callee w : Value V).getUnresolvedNames →
      n = callee := by
    intro w hn
    obtain ⟨tag, hn⟩ := Value.mem_names.1 hn
    cases tag <;> exact names_unresolved _ _ _ hn
  simp only [findCallee] at h
  split at h
  · rename_i hfuture
    split at h
    · exact absurd h (htop _)
    split at h
    · exact .inl (hunresolved _ h ▸ hfuture)
    · exact .inl (hunresolved _ h ▸ hfuture)
  split at h
  · split at h
    · split at h
      · exact absurd h (htop _)
      · exact absurd h (htop _)
    rename_i v hv
    refine absurd h (hresolved v _ ?_)
    rw [getValueOpt, Option.map_eq_some_iff] at hv
    obtain ⟨d, -, rfl⟩ := hv
    have hdecode : ∀ l : Level, ∃ r, (decode l : V) = ofResolved r := by
      intro l
      cases l with
      | bot => exact ⟨.bot, rfl⟩
      | safe => exact ⟨.safe, rfl⟩
      | top => exact ⟨.top ∅, rfl⟩
    obtain ⟨r1, h1⟩ := hdecode d.1
    obtain ⟨r2, h2⟩ := hdecode d.2.1
    obtain ⟨r3, h3⟩ := hdecode d.2.2
    rw [h1, h2, h3]
    exact Value.ofResolved_isResolved r1 r2 r3
  rename_i calleeInfo hinfo
  split at h
  · rename_i hres
    exact absurd h (hresolved _ _ hres)
  · rw [hunresolved _ h, hinfo]; exact .inr rfl

variable {config : UnitConfig ν} {future : Finset ν}

theorem names_summary {f : Fundecl V ν ω} (h : n ∈ (summary config future u f).getUnresolvedNames) :
    n ∈ future ∨ (u[n]?).isSome := by
  have hbody : ∀ keep, n ∈ (f.checkBody (findCallee
      (⟨config, f.name, future, u, keep⟩ : Context V ν))).getUnresolvedNames →
      n ∈ future ∨ (u[n]?).isSome := by
    intro keep hn
    obtain ⟨callee, k, hn⟩ := f.names _ n hn
    exact names_findCallee hn
  have hresolved : ∀ v : Value V, v.isResolved = true → n ∉ v.getUnresolvedNames := by
    intro v hv
    rw [Value.names_eq_empty.2 hv]
    exact notMem_empty n
  simp only [summary] at h
  split at h
  · split at h
    · exact absurd h (hresolved _ (Value.ofAnnot_isResolved _ _ _))
    split at h
    · exact absurd h (hresolved _ (Value.top_isResolved _))
    · exact hbody _ h
  split at h
  · exact absurd h (hresolved _ (Value.top_isResolved _))
  · exact hbody _ h

/-- A function that bypasses the bookkeeping is resolved. -/
theorem bypasses_isResolved {f : Fundecl V ν ω} (h : bypasses config f = true) :
    (summary config future u f).isResolved = true := by
  simp only [bypasses, Bool.or_eq_true] at h
  simp only [summary]
  split
  · rename_i a ha
    rw [ha] at h
    split
    · exact Value.ofAnnot_isResolved _ _ _
    rename_i hassume
    rw [if_pos (h.resolve_left hassume)]
    exact Value.top_isResolved _
  rename_i ha
  rw [ha] at h
  rw [if_pos (h.resolve_left (by simp))]
  exact Value.top_isResolved _

/-- The entry that `check_fun` adds. -/
def recordedInfo (config : UnitConfig ν) (future : Finset ν) (u : UnitInfo V ν)
    (f : Fundecl V ν ω) : FuncInfo V ν :=
  ⟨f.name, summary config future u f, recordedAnnot f⟩

theorem checkFun_halts (config : UnitConfig ν) (future : Finset ν) {f : Fundecl V ν ω}
    (hfull : Full s) (hf : s.unitInfo[f.name]? = none) :
    Halts (fun fuel => checkFun fuel config future f s) fun s' => Full s' ∧
      Refines (s.unitInfo.insert f.name (recordedInfo config future s.unitInfo f)) s'.unitInfo := by
  have hrecord : s.unitInfo.record f.name (summary config future s.unitInfo f) (recordedAnnot f) =
        .ok (s.unitInfo.insert f.name (recordedInfo config future s.unitInfo f)) := by
    rw [UnitInfo.record, hf]
    rfl
  by_cases hbypasses : bypasses config f = true
  · have hunfold : ∀ fuel, checkFun fuel config future f s = .ok { s with
        unitInfo := s.unitInfo.insert f.name (recordedInfo config future s.unitInfo f) } := by
      intro fuel
      rw [checkFun, hrecord]
      exact if_pos hbypasses
    simp only [hunfold]
    refine .of_ok rfl ⟨⟨?_, ?_⟩, .refl _⟩
    · intro g info hg
      rw [getElem?_insert] at hg
      split at hg
      · rename_i hgf
        cases hg
        exact hgf
      · exact hfull.names g info hg
    refine hfull.table.congr fun g c => ?_
    rw [mentions_insert hf, recordedInfo, Value.names_eq_empty.2 (bypasses_isResolved hbypasses)]
    simp
  have hunfold : ∀ fuel, checkFun fuel config future f s =
      addUnresolvedDependencies fuel f.name { s with
        unitInfo := s.unitInfo.insert f.name (recordedInfo config future s.unitInfo f) } := by
    intro fuel
    rw [checkFun, hrecord]
    exact if_neg hbypasses
  simp only [hunfold]
  exact addUnresolvedDependencies_halts hfull hf rfl

/-! ## §3 Runs -/

/-- The names of the functions that are yet to be checked. -/
def futureNames (funs : List (Fundecl V ν ω)) : Finset ν := (funs.map (·.name)).toFinset

/-- The states of the check of a unit: the functions that are left, and the summaries that have
been recorded for the others. -/
inductive Reached (config : UnitConfig ν) :
    List (Fundecl V ν ω) → State V ν → (ν → Option (Value V)) → Prop
  | start {funs : List (Fundecl V ν ω)} : (funs.map (·.name)).Nodup →
      Reached config funs ⟨∅, ∅⟩ fun _ => none
  | check {f : Fundecl V ν ω} {rest : List (Fundecl V ν ω)} {s s' : State V ν}
      {summaries : ν → Option (Value V)} : Reached config (f :: rest) s summaries →
      Halts (fun fuel => checkFun fuel config (futureNames (f :: rest)) f s) (· = s') →
      Reached config rest s' (Function.update summaries f.name
        (some (summary config (futureNames (f :: rest)) s.unitInfo f)))

/-- What holds in every state that is reached. -/
structure UnitInv (rest : List (Fundecl V ν ω)) (s : State V ν)
    (summaries : ν → Option (Value V)) : Prop where
  full : Full s
  nodup : (rest.map (·.name)).Nodup
  fresh : ∀ f ∈ rest, s.unitInfo[f.name]? = none
  domain : ∀ f : ν, (s.unitInfo[f]?).isSome = (summaries f).isSome
  closed : ∀ f c, Mentions s.unitInfo f c → c ∈ futureNames rest ∨ (s.unitInfo[c]?).isSome
  sound : ∀ (f : ν) v info, summaries f = some v → s.unitInfo[f]? = some info →
    ∀ ρ, AgreesWith s.unitInfo ρ → ∀ tag, v.meaning ρ tag ≤ info.value.meaning ρ tag

theorem UnitInv.check {config : UnitConfig ν} {f : Fundecl V ν ω} {rest : List (Fundecl V ν ω)}
    {s s' : State V ν} {summaries : ν → Option (Value V)} (h : UnitInv (f :: rest) s summaries)
    (hfull : Full s') (hrefines : Refines (s.unitInfo.insert f.name
      (recordedInfo config (futureNames (f :: rest)) s.unitInfo f)) s'.unitInfo) :
    UnitInv rest s' (Function.update summaries f.name
      (some (summary config (futureNames (f :: rest)) s.unitInfo f))) := by
  have hf : s.unitInfo[f.name]? = none := h.fresh f (by simp)
  have hnodup := h.nodup
  rw [List.map_cons, List.nodup_cons] at hnodup
  have hdomain : ∀ g : ν,
    (s'.unitInfo[g]?).isSome = (decide (f.name = g) || (s.unitInfo[g]?).isSome) := by
    intro g
    rw [hrefines.domain]
    by_cases hg : f.name = g
    · simp [hg]
    · simp [hg]
  refine ⟨hfull, hnodup.2, ?_, ?_, ?_, ?_⟩
  · intro g hg
    have hnone := hdomain g.name
    have hne : f.name ≠ g.name := fun heq => hnodup.1 (List.mem_map.2 ⟨g, hg, heq.symm⟩)
    rw [h.fresh g (by simp [hg]), decide_eq_false hne] at hnone
    exact Option.not_isSome_iff_eq_none.1 (by rw [hnone]; simp)
  · intro g
    rw [hdomain, h.domain]
    by_cases hg : g = f.name
    · simp [hg]
    · simp [hg, Ne.symm hg]
  · rintro g c ⟨info', hinfo', hc⟩
    have hsome : ((s.unitInfo.insert f.name
        (recordedInfo config (futureNames (f :: rest)) s.unitInfo f))[g]?).isSome := by
      rw [← hrefines.domain, hinfo']
      rfl
    obtain ⟨info, hinfo⟩ := isSome_iff_exists.1 hsome
    have hold : c ∈ futureNames (f :: rest) ∨ (s.unitInfo[c]?).isSome := by
      have hmem := hrefines.names g info info' hinfo hinfo' hc
      have hmentions := (mentions_insert hf g c).1 ⟨info, hinfo, hmem⟩
      rcases hmentions with hmentions | ⟨-, hmentions⟩
      · exact h.closed g c hmentions
      · exact names_summary hmentions
    rw [hdomain]
    rcases hold with hold | hold
    · rw [futureNames, List.mem_toFinset, List.map_cons, List.mem_cons] at hold
      rcases hold with rfl | hold
      · simp
      · exact .inl (by rw [futureNames, List.mem_toFinset]; exact hold)
    · simp [hold]
  intro g v info' hv hinfo' ρ hρ tag
  have hρ' := hrefines.agrees ρ hρ
  rw [Function.update_apply] at hv
  by_cases hg : g = f.name
  · subst hg
    rw [if_pos rfl] at hv
    cases hv
    exact hrefines.meaning f.name _ info' (by rw [getElem?_insert, if_pos rfl]) hinfo' ρ hρ tag
  rw [if_neg hg] at hv
  have hsome : (s.unitInfo[g]?).isSome := by
    rw [h.domain, hv]
    rfl
  obtain ⟨info, hinfo⟩ := isSome_iff_exists.1 hsome
  have hinsert : (s.unitInfo.insert f.name
      (recordedInfo config (futureNames (f :: rest)) s.unitInfo f))[g]? = some info := by
    rw [getElem?_insert, if_neg (Ne.symm hg), hinfo]
  exact (h.sound g v info hv hinfo ρ (agreesWith_insert hf hρ') tag).trans
    (hrefines.meaning g info info' hinsert hinfo' ρ hρ tag)

variable {summaries : ν → Option (Value V)}

theorem Reached.unitInv {rest : List (Fundecl V ν ω)} (h : Reached config rest s summaries) :
    UnitInv rest s summaries := by
  induction h with
  | start hnodup =>
    refine ⟨⟨?_, ?_⟩, hnodup, ?_, ?_, ?_, ?_⟩
    · intro f info hinfo; simp at hinfo
    · exact Table.empty.congr fun f c => by simp [Mentions]
    · simp
    · simp
    · rintro f c ⟨info, hinfo, -⟩; simp at hinfo
    · intro f v info hv; cases hv
  | @check f rest s s' summaries _ hcheck ih =>
    obtain ⟨N, _, rfl, hN⟩ := hcheck
    obtain ⟨M, s'', ⟨hfull, hrefines⟩, hM⟩ := checkFun_halts config
      (futureNames (f :: rest)) ih.full (ih.fresh f (by simp))
    have heq := (hN (max N M) (by omega)).symm.trans (hM (max N M) (by omega))
    cases heq
    exact ih.check hfull hrefines

/-- The approximation that `record_unit` starts with. -/
def initApprox (info : FuncInfo V ν) : Value V :=
  if info.value.isResolved then info.value else FixEnv.initVal

theorem initApprox_isResolved (info : FuncInfo V ν) : (initApprox info).isResolved = true := by
  rw [initApprox]
  split
  · assumption
  · exact initVal_isResolved

theorem initEnv_eq (hnames : NamesKept u) : ∃ env found, initEnv u = .ok (env, found) ∧
      (∀ f : ν, env[f]? = (u[f]?).map fun info => ⟨info, initApprox info⟩) ∧
      (found = false ↔ ∀ (f : ν) info, u[f]? = some info → info.value.isResolved = true) := by
  have hfold : Lib.Outcome (fun _ => False) (initEnv u) fun r =>
      (∀ p : ν × FuncInfo V ν, p ∈ u.toList → r.1[p.1]? = some ⟨p.2, initApprox p.2⟩) ∧
      (∀ f : ν, (∀ p ∈ u.toList, p.1 ≠ f) → r.1[f]? = none) ∧
      (r.2 = false ↔ ∀ p ∈ u.toList, p.2.value.isResolved = true) := by
    refine Lib.Outcome.foldlM (I := fun done (r : FixEnv V ν × Bool) =>
      (∀ p : ν × FuncInfo V ν, p ∈ done → r.1[p.1]? = some ⟨p.2, initApprox p.2⟩) ∧
      (∀ f : ν, (∀ p ∈ done, p.1 ≠ f) → r.1[f]? = none) ∧
      (r.2 = false ↔ ∀ p ∈ done, p.2.value.isResolved = true)) ?_ ?_
    · exact ⟨fun _ h => (nomatch h), fun f _ => by simp, by simp⟩
    rintro done p rest ⟨env, found⟩ hl ⟨hdone, hother, hfound⟩
    have hp : u[p.1]? = some p.2 := mem_toList.1 (by rw [hl]; simp)
    have hadd : env.add p.2 (initApprox p.2) = .ok (env.insert p.1 ⟨p.2, initApprox p.2⟩) := by
      rw [FixEnv.add, assertUnit_true (initApprox_isResolved p.2), hnames p.1 p.2 hp]
      rfl
    -- the two branches add the same entry
    have hstep : (if p.2.value.isResolved then do pure (← env.add p.2 p.2.value, found)
        else do pure (← env.add p.2 FixEnv.initVal, true) : Except ExnUnit (FixEnv V ν × Bool)) =
        .ok (env.insert p.1 ⟨p.2, initApprox p.2⟩, found || !p.2.value.isResolved) := by
      by_cases hres : p.2.value.isResolved = true
      · rw [initApprox, if_pos hres] at hadd
        rw [hadd, initApprox, hres]
        simp
      rw [initApprox, if_neg hres] at hadd
      rw [hadd, initApprox, Bool.eq_false_iff.2 hres]
      simp
    rw [hstep]
    refine .pure ⟨fun q hq => ?_, fun f hf => ?_, ?_⟩
    · rw [getElem?_insert]
      rw [List.mem_append, List.mem_singleton] at hq
      rcases hq with hq | rfl
      · rw [if_neg (Ne.symm (Lib.not_mem_done hl q hq))]; exact hdone q hq
      · rw [if_pos rfl]
    · rw [getElem?_insert, if_neg (hf p (by simp))]
      exact hother f fun q hq => hf q (by simp [hq])
    rw [Bool.or_eq_false_iff, hfound]
    simp only [Bool.not_eq_false', List.mem_append, List.mem_singleton]
    constructor
    · rintro ⟨hall, hp'⟩ q (hq | rfl)
      · exact hall q hq
      · exact hp'
    · exact fun hall => ⟨fun q hq => hall q (.inl hq), hall p (.inr rfl)⟩
  obtain ⟨⟨env, found⟩, heq, hdone, hother, hfound⟩ := hfold.exists_ok
  refine ⟨env, found, heq, fun f => ?_, hfound.trans ⟨fun h f info hinfo => ?_, fun h p hp => ?_⟩⟩
  · cases hf : u[f]? with
    | none =>
      refine hother f fun p hp hpf => ?_
      rw [← hpf, mem_toList.1 (show (p.1, p.2) ∈ u.toList from hp)] at hf
      cases hf
    | some info => exact hdone (f, info) (mem_toList.2 hf)
  · exact h (f, info) (mem_toList.2 hinfo)
  · exact h p.1 p.2 (mem_toList.1 hp)

/-- All witnesses of the unit. -/
def unitWitnesses (u : UnitInfo V ν) : Witnesses ω :=
  u.toList.foldr (fun p acc => p.2.value.allWitnesses ∪ acc) ∅

theorem allWitnesses_subset
    (h : u[f]? = some info) : info.value.allWitnesses ⊆ unitWitnesses u := by
  have hsub : ∀ l : List (ν × FuncInfo V ν), ∀ p ∈ l, p.2.value.allWitnesses ⊆
      l.foldr (fun p acc => p.2.value.allWitnesses ∪ acc) ∅ := by
    intro l
    induction l with
    | nil => exact fun p hp => (nomatch hp)
    | cons q l ih =>
      intro p hp
      rcases List.mem_cons.1 hp with rfl | hp
      · exact Finset.subset_union_left
      · exact (ih p hp).trans Finset.subset_union_right
  exact hsub u.toList (f, info) (mem_toList.2 h)

/-- The environment of `record_unit` is one that `fixpoint` can start from. -/
theorem initEnv_inv {env : FixEnv V ν}
    (henv : ∀ f : ν, env[f]? = (u[f]?).map fun info => ⟨info, initApprox info⟩)
    (hclosed : ∀ f c, Mentions u f c → (u[c]?).isSome) :
    FixEnv.Inv env (unitWitnesses u) env := by
  have hentry : ∀ (f : ν) d, env[f]? = some d → u[f]? = some d.funcInfo ∧
      d.approx = initApprox d.funcInfo := by
    intro f d hd
    rw [henv, Option.map_eq_some_iff] at hd
    obtain ⟨info, hinfo, rfl⟩ := hd
    exact ⟨hinfo, rfl⟩
  refine ⟨fun _ => rfl, rfl, ?_, ?_, ?_, ?_⟩
  · intro f d hd n hn
    rw [henv, Option.isSome_map]
    exact hclosed f n ⟨d.funcInfo, (hentry f d hd).1, hn⟩
  · intro f d hd
    rw [(hentry f d hd).2]
    exact initApprox_isResolved _
  · intro f d hd
    obtain ⟨hinfo, happrox⟩ := hentry f d hd
    refine ⟨fun tag r hr => ?_, fun tag => ?_⟩
    · rw [happrox, initApprox] at hr
      split at hr
      · exact (Value.witnessesIn_all _ tag r hr).trans (allWitnesses_subset hinfo)
      · exact initVal_witnessesIn _ tag r hr
    · exact (Value.witnesses_subset _ tag).trans (allWitnesses_subset hinfo)
  · intro f d hd hres ρ tag; rw [(hentry f d hd).2, initApprox, if_pos hres]

theorem checkAndSaveUnitInfo_eq (config : UnitConfig ν)
    (h : ∀ (f : ν) info, u[f]? = some info → info.value.isResolved = true) :
    ∃ errors, checkAndSaveUnitInfo config u = .ok errors := by
  have hfold : Lib.Outcome (fun _ => False) (checkAndSaveUnitInfo config u) fun _ => True := by
    refine Lib.Outcome.foldlM (I := fun _ _ => True) trivial ?_
    intro done p rest errors hl _
    have hp : u[p.1]? = some p.2 := mem_toList.1 (by rw [hl]; simp)
    rw [if_pos (h _ _ hp)]
    exact .pure trivial
  obtain ⟨errors, herrors, -⟩ := hfold.exists_ok
  exact ⟨errors, herrors⟩

/-- The values of the unit as an assignment. -/
def finalValues (u : UnitInfo V ν) (x : Var ν) : Level :=
  match u[x.1]? with
  | some info => info.value.meaning (fun _ => .bot) x.2
  | none => .bot

theorem agreesWith_finalValues (u : UnitInfo V ν) : AgreesWith u (finalValues u) := by
  intro f info hinfo hres tag
  rw [finalValues, hinfo]
  exact Value.meaning_resolved hres tag

theorem recordUnit_halts (hfull : Full s)
    (hclosed : ∀ f c, Mentions s.unitInfo f c → (s.unitInfo[c]?).isSome) :
    Halts (fun fuel => recordUnit fuel config s) fun r => Refines s.unitInfo r.1 ∧
      ∀ (f : ν) info, r.1[f]? = some info → info.value.isResolved = true := by
  obtain ⟨env, found, hinit, henv, hfound⟩ := initEnv_eq hfull.names
  simp only [recordUnit, hinit]
  cases found with
  | true =>
    have hentry : ∀ (f : ν) d, env[f]? = some d →
        s.unitInfo[f]? = some d.funcInfo ∧ d.funcInfo.name = f := by
      intro f d hd
      rw [henv, Option.map_eq_some_iff] at hd
      obtain ⟨info, hinfo, rfl⟩ := hd
      exact ⟨hinfo, hfull.names f info hinfo⟩
    refine (fixpoint_halts (initEnv_inv henv hclosed) hentry).bind ?_
    rintro u' ⟨hrefines, hresolved, -⟩
    have hall : ∀ (f : ν) info, u'[f]? = some info → info.value.isResolved = true := by
      intro f info hinfo
      have hsome : (env[f]?).isSome := by
        rw [henv, Option.isSome_map, ← hrefines.domain, hinfo]
        rfl
      obtain ⟨d, hd⟩ := isSome_iff_exists.1 hsome
      obtain ⟨info', hinfo', -, hres⟩ := hresolved f d hd
      rw [hinfo] at hinfo'
      cases hinfo'
      exact hres
    obtain ⟨errors, herrors⟩ := checkAndSaveUnitInfo_eq config hall
    rw [herrors]
    exact .pure ⟨hrefines, hall⟩
  | false =>
    have hall := hfound.1 rfl
    have hempty : Std.ExtTreeMap.isEmpty s.unresolvedDeps = true := by
      rw [Std.ExtTreeMap.isEmpty_iff]
      refine Std.ExtTreeMap.ext_getElem? fun c => ?_
      cases hc : s.unresolvedDeps[c]? with
      | none => simp
      | some callers =>
        obtain ⟨f, hf⟩ := Finset.nonempty_iff_ne_empty.2 (hfull.table.nonempty c callers hc)
        obtain ⟨info, hinfo, hin⟩ := (hfull.table.mem_callers hc f).1 hf
        rw [Value.names_eq_empty.2 (hall f info hinfo)] at hin
        exact absurd hin (notMem_empty c)
    obtain ⟨errors, herrors⟩ := checkAndSaveUnitInfo_eq config hall
    rw [assertUnit_true hempty]
    change Halts (fun _ => do pure (s.unitInfo, ← checkAndSaveUnitInfo config s.unitInfo)) _
    rw [herrors]
    exact .pure ⟨.refl _, hall⟩

/-- What is promised in a state that the check of a unit reaches. -/
structure UnitSound (config : UnitConfig ν) (rest : List (Fundecl V ν ω)) (s : State V ν)
    (summaries : ν → Option (Value V)) : Prop where
  /-- The table has, for a callee, the functions that mention it. -/
  table : ∀ f c : ν, (∃ callers, s.unresolvedDeps[c]? = some callers ∧ f ∈ callers) ↔
    ∃ info, s.unitInfo[f]? = some info ∧ c ∈ info.value.getUnresolvedNames
  nonempty : ∀ (c : ν) (callers : Finset ν), s.unresolvedDeps[c]? = some callers → callers ≠ ∅
  /-- The next function is checked without a failure. -/
  checks : ∀ f rest', rest = f :: rest' →
    Halts (fun fuel => checkFun fuel config (futureNames rest) f s) fun _ => True
  /-- At the end every function has a resolved value, and its summary is not above it. -/
  records : rest = [] → Halts (fun fuel => recordUnit fuel config s) fun r =>
    ∀ f v, summaries f = some v → ∃ info, r.1[f]? = some info ∧ info.value.isResolved = true ∧
      ∀ tag, v.meaning (finalValues r.1) tag ≤ info.value.meaning (finalValues r.1) tag

/-- Every unit can be checked to its end. -/
theorem exists_reached (config : UnitConfig ν) {funs : List (Fundecl V ν ω)}
    (h : Reached config funs s summaries) :
    ∃ s' summaries', Reached config ([] : List (Fundecl V ν ω)) s' summaries' ∧
      (∀ n, (summaries n).isSome → (summaries' n).isSome) ∧
      ∀ f ∈ funs, (summaries' f.name).isSome := by
  induction funs generalizing s summaries with
  | nil => exact ⟨s, summaries, h, fun _ hn => hn, fun _ hf => (nomatch hf)⟩
  | cons f rest ih =>
    obtain ⟨N, s', -, hN⟩ := checkFun_halts config (futureNames (f :: rest))
      h.unitInv.full (h.unitInv.fresh f (by simp))
    obtain ⟨s'', summaries', hreached, hkept, hrest⟩ := ih (.check h ⟨N, s', rfl, hN⟩)
    refine ⟨s'', summaries', hreached, fun n hn => hkept n ?_, fun g hg => ?_⟩
    · rw [Function.update_apply]
      split
      · rfl
      · exact hn
    rcases List.mem_cons.1 hg with rfl | hg
    · exact hkept g.name (by rw [Function.update_self]; rfl)
    · exact hrest g hg

theorem reached_sound (config : UnitConfig ν) (rest : List (Fundecl V ν ω)) (s : State V ν)
    (summaries : ν → Option (Value V)) (h : Reached config rest s summaries) :
    UnitSound config rest s summaries := by
  have hinv := h.unitInv
  refine ⟨hinv.full.table.callers, hinv.full.table.nonempty, ?_, ?_⟩
  · rintro f rest' rfl
    exact (checkFun_halts _ _ hinv.full (hinv.fresh f (by simp))).mono fun _ _ => trivial
  rintro rfl
  have hclosed : ∀ f c, Mentions s.unitInfo f c → (s.unitInfo[c]?).isSome := by
    intro f c hc
    exact (hinv.closed f c hc).resolve_left (by simp [futureNames])
  refine (recordUnit_halts hinv.full hclosed).mono ?_
  rintro r ⟨hrefines, hall⟩ f v hv
  have hsome : (s.unitInfo[f]?).isSome := by
    rw [hinv.domain, hv]
    rfl
  obtain ⟨info, hinfo⟩ := isSome_iff_exists.1 hsome
  have hsome' : (r.1[f]?).isSome := by
    rw [hrefines.domain, hinfo]
    rfl
  obtain ⟨info', hinfo'⟩ := isSome_iff_exists.1 hsome'
  refine ⟨info', hinfo', hall f info' hinfo', fun tag => ?_⟩
  have hfinal := agreesWith_finalValues r.1
  exact (hinv.sound f v info hv hinfo _ (hrefines.agrees _ hfinal) tag).trans
    (hrefines.meaning f info info' hinfo hinfo' _ hfinal tag)

section Examples

/-- A function that calls two others, and allocates nothing itself. -/
def exampleFun (name callee1 callee2 : ℕ) : Fundecl (Term ℕ ℕ) ℕ ℕ where
  name := name
  annot := none
  checkBody findCallee := (findCallee callee1 fun _ => 0).join (findCallee callee2 fun _ => 1)
  names findCallee n hn := by
    obtain ⟨tag, hn⟩ := Value.mem_names.1 hn
    rw [Value.getComponent_join] at hn
    rcases Finset.mem_union.1 hn with hn | hn
    · exact ⟨callee1, _, Value.mem_names.2 ⟨tag, hn⟩⟩
    · exact ⟨callee2, _, Value.mem_names.2 ⟨tag, hn⟩⟩

def exampleConfig : UnitConfig ℕ where
  disablePrecise := false
  disableChecker := false
  enabled := true
  keepWitnesses _ := true
  isCamlInternal _ := false
  cachedZeroAllocInfo _ := none

/-- Three functions that call each other. -/
theorem reached_sound_cycle : ∃ s summaries,
    Reached exampleConfig ([] : List (Fundecl (Term ℕ ℕ) ℕ ℕ)) s summaries ∧
    (summaries 0).isSome ∧ (summaries 1).isSome ∧ (summaries 2).isSome ∧
    UnitSound exampleConfig ([] : List (Fundecl (Term ℕ ℕ) ℕ ℕ)) s summaries := by
  have hstart : Reached exampleConfig [exampleFun 0 1 2, exampleFun 1 1 2, exampleFun 2 0 7]
      ⟨∅, ∅⟩ fun _ => none := .start (by decide)
  obtain ⟨s, summaries, hreached, -, hsummaries⟩ := exists_reached exampleConfig hstart
  exact ⟨s, summaries, hreached, hsummaries (exampleFun 0 1 2) (by simp),
    hsummaries (exampleFun 1 1 2) (by simp), hsummaries (exampleFun 2 0 7) (by simp),
    reached_sound exampleConfig [] s summaries hreached⟩

end Examples

end Oxcaml.Backend.ZeroAlloc
