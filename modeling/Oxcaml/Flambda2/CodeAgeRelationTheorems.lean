/-
Oxcaml.Flambda2.CodeAgeRelationTheorems — the meet of sets of versions of code.

`Ages R` (§1) is the partial order of a relation in which every code id has at most one
older version; `gamma ids` are the newer versions of `ids`. The tables that the walk reads
record `R` (§2), so the walk finds an older version exactly when there is one, unless a unit
on its way cannot be seen. As the older versions of one code id are a chain, two sets meet
in the newer one of each pair that can be compared (§3).
-/
import Mathlib
import Oxcaml.Flambda2.CodeAgeRelation
import Oxcaml.Lib.Fuel
import Oxcaml.Lib.Outcome

set_option linter.all false

namespace Oxcaml.Flambda2.CodeAgeRelation

open Relation (ReflTransGen TransGen)
open Oxcaml.Lib (Halts)

variable {ι υ : Type}

/-! ## §1 Versions -/

/-- `newer` has `older` as its older version. -/
def Step (R : ι → Option ι) (newer older : ι) : Prop := R newer = some older

/-- `newer` is `older`, or a newer version of it. -/
def IsVersionOf (R : ι → Option ι) (newer older : ι) : Prop := ReflTransGen (Step R) newer older

/-- A finite relation without cycles. -/
structure Acyclic (R : ι → Option ι) : Prop where
  finite : {id | R id ≠ none}.Finite
  no_cycle : ∀ id, ¬TransGen (Step R) id id

/-- The code ids that are equal to or newer versions of a member of `ids`. -/
def gamma (R : ι → Option ι) (ids : Finset ι) : Set ι :=
    {id | ∃ older ∈ ids, IsVersionOf R id older}

variable {R : ι → Option ι} {id id1 id2 newer older : ι}

theorem Step.rightUnique {older1 older2 : ι} (h1 : Step R id older1) (h2 : Step R id older2) :
    older1 = older2 :=
  Option.some.inj (h1.symm.trans h2)

/-- The older versions of one code id are a chain. -/
theorem IsVersionOf.total {older1 older2 : ι} (h1 : IsVersionOf R id older1)
    (h2 : IsVersionOf R id older2) : IsVersionOf R older1 older2 ∨ IsVersionOf R older2 older1 :=
  h1.total_of_right_unique (fun _ _ _ => Step.rightUnique) h2

theorem Acyclic.antisymm (h : Acyclic R) (h1 : IsVersionOf R id1 id2)
    (h2 : IsVersionOf R id2 id1) : id1 = id2 := by
  rcases Relation.reflTransGen_iff_eq_or_transGen.1 h1 with heq | h1
  · exact heq.symm
  · exact absurd (h1.trans_left h2) (h.no_cycle id1)

/-- Every walk to older versions ends. -/
theorem Acyclic.wellFounded (h : Acyclic R) : WellFounded fun older newer =>
    Step R newer older := by
  have hnone : ∀ id, R id = none → Acc (fun older newer => Step R newer older) id := by
    intro id hid
    constructor
    intro older hstep
    rw [Step, hid] at hstep
    cases hstep
  let after (older newer : {id // R id ≠ none}) : Prop := TransGen (Step R) newer older
  have hfinite : Finite {id // R id ≠ none} := h.finite
  have hirrefl : Std.Irrefl after := ⟨fun id => h.no_cycle id⟩
  have hwf : WellFounded after := Finite.wellFounded_of_trans_of_irrefl after
  have hbound : ∀ id : {id // R id ≠ none}, Acc (fun older newer => Step R newer older) id.1 := by
    intro id
    induction id using hwf.induction with
    | _ id ih =>
      constructor
      intro older hstep
      by_cases holder : R older = none
      · exact hnone older holder
      · exact ih ⟨older, holder⟩ (.single hstep)
  constructor
  intro id
  by_cases hid : R id = none
  · exact hnone id hid
  · exact hbound ⟨id, hid⟩

theorem isVersionOf_step (h : R newer = some older) :
    IsVersionOf R newer id ↔ newer = id ∨ IsVersionOf R older id := by
  constructor
  · intro hid
    rcases hid.cases_head with heq | ⟨older', hstep, hid⟩
    · exact .inl heq
    · rw [Step.rightUnique h hstep]; exact .inr hid
  rintro (rfl | hid)
  · exact .refl
  · exact hid.head h

theorem isVersionOf_oldest (h : R newer = none) : IsVersionOf R newer id ↔ newer = id := by
  constructor
  · intro hid
    rcases hid.cases_head with heq | ⟨older, hstep, -⟩
    · exact heq
    · rw [Step, h] at hstep; cases hstep
  · rintro rfl; exact .refl

variable {ids : Finset ι}

theorem gamma_mono (h : IsVersionOf R newer older)
    (hmem : older ∈ gamma R ids) : newer ∈ gamma R ids := by
  obtain ⟨id, hid, hof⟩ := hmem
  exact ⟨id, hid, h.trans hof⟩

/-! ## §2 The walk -/

variable [LinearOrder ι] [DecidableEq υ] {c : Context ι υ} {t : T ι}

/-- The tables record `R`: what they bind is right, the code ids of a unit are all in the
unit's own table, and what another unit knows of is not of the current unit. -/
structure Records (c : Context ι υ) (t : T ι) (R : ι → Option ι) : Prop where
  sound : ∀ id older : ι, t[id]? = some older → R id = some older
  complete : ∀ id : ι, c.getCompilationUnit id = c.current → t[id]? = R id
  resolved_sound : ∀ unit table, c.resolver unit = some table →
    ∀ id older : ι, table[id]? = some older → R id = some older
  resolved_complete : ∀ (id : ι) table, c.resolver (c.getCompilationUnit id) = some table →
    table[id]? = R id
  earlier : ∀ id older, R id = some older → c.getCompilationUnit id ≠ c.current →
    c.getCompilationUnit older ≠ c.current

/-- No unit on the way to the older versions of `id` is hidden from the resolver. -/
def Resolvable (c : Context ι υ) (R : ι → Option ι) (id : ι) : Prop :=
  ∀ older, IsVersionOf R id older → c.getCompilationUnit older ≠ c.current →
    c.resolver (c.getCompilationUnit older) ≠ none

/-- What the walk from `id` may answer. -/
def Answers (c : Context ι υ) (R : ι → Option ι) (id : ι) (candidates : Finset ι) :
    OrUnknown Bool → Prop
  | .known b => b = true ↔ id ∈ gamma R candidates
  | .unknown => ¬Resolvable c R id

omit [DecidableEq υ] in
theorem Answers.step {id older : ι} {candidates : Finset ι} {answer : OrUnknown Bool}
    (hstep : R id = some older) (hid : id ∉ candidates)
    (h : Answers c R older candidates answer) :
    Answers c R id candidates answer := by
  cases answer with
  | known b =>
    refine Iff.trans h ⟨gamma_mono (.single hstep), ?_⟩
    intro ⟨candidate, hmem, hof⟩
    rcases (isVersionOf_step hstep).1 hof with rfl | hof
    · exact absurd hmem hid
    · exact ⟨candidate, hmem, hof⟩
  | unknown => exact fun hres => h fun older' hof => hres older' (hof.head hstep)

/-- The table that the walk holds: the one it started with, or one of another unit and then
no code id of the current unit follows. -/
def Holds (c : Context ι υ) (t : T ι) (R : ι → Option ι) (table : T ι) (id : ι) : Prop :=
  (∀ id older : ι, table[id]? = some older → R id = some older) ∧
    (table = t ∨ c.getCompilationUnit id ≠ c.current)

theorem Records.hasOlderVersionIn_halts (h : Records c t R)
    (hacyclic : Acyclic R) (candidates : Finset ι) (id : ι) :
    Halts (fun fuel => hasOlderVersionIn c fuel t id candidates) (Answers c R id candidates) := by
  have hwalk : ∀ id table, Holds c t R table id →
      Halts (fun fuel =>
        hasOlderVersionIn c fuel table id candidates)
        (Answers c R id candidates) := by
    intro id
    induction id using hacyclic.wellFounded.induction with
    | _ id ih =>
      intro table ⟨hsound, htable⟩
      refine .of_succ ?_
      simp only [hasOlderVersionIn]
      by_cases hid : id ∈ candidates
      · simp only [if_pos hid]; exact .pure ⟨fun _ => ⟨id, hid, .refl⟩, fun _ => rfl⟩
      simp only [if_neg hid]
      have hnone : R id = none → Answers c R id candidates (.known false) := by
        intro hR
        constructor
        · intro hfalse; cases hfalse
        intro ⟨candidate, hmem, hof⟩
        rw [(isVersionOf_oldest hR).1 hof] at hid
        exact absurd hmem hid
      cases hget : table[id]? with
      | some older =>
        have hR := hsound id older hget
        refine (ih older hR table ⟨hsound, ?_⟩).mono fun answer => Answers.step hR hid
        rcases htable with rfl | hne
        · exact .inl rfl
        · exact .inr (h.earlier id older hR hne)
      | none =>
        by_cases hcurrent : c.getCompilationUnit id = c.current
        · simp only [if_pos hcurrent]
          rcases htable with rfl | hne
          · exact .pure (hnone ((h.complete id hcurrent).symm.trans hget))
          · exact absurd hcurrent hne
        simp only [if_neg hcurrent]
        cases hresolver : c.resolver (c.getCompilationUnit id) with
        | none => exact .pure fun hres => hres id .refl hcurrent hresolver
        | some resolved =>
          dsimp only
          have hcomplete := h.resolved_complete id resolved hresolver
          cases hget : resolved[id]? with
          | none => exact .pure (hnone (hcomplete.symm.trans hget))
          | some older =>
            have hR := hcomplete.symm.trans hget
            exact (ih older hR resolved ⟨h.resolved_sound _ resolved hresolver,
              .inr (h.earlier id older hR hcurrent)⟩).mono fun answer => Answers.step hR hid
  exact hwalk id t ⟨h.sound, .inl rfl⟩

/-! ## §3 Filters -/

theorem filterSet_halts {p : ℕ → ι → Except Exn Bool} {Q : ι → Bool → Prop}
    (hp : ∀ id ∈ ids, Halts (fun fuel => p fuel id) (Q id)) :
    Halts (fun fuel => filterSet (p fuel) ids)
      fun kept => kept ⊆ ids ∧ ∀ id ∈ ids, Q id (decide (id ∈ kept)) := by
  have hfold := Halts.foldlM (l := ids.sort (· ≤ ·)) (b := (∅ : Finset ι))
    (g := fun fuel kept id => do
      let keep ← p fuel id
      pure (if keep then insert id kept else kept))
    (I := fun rest kept => rest.Nodup ∧ (∀ id ∈ kept, id ∈ ids ∧ id ∉ rest) ∧
      ∀ id ∈ ids, id ∉ rest → Q id (decide (id ∈ kept)))
    ⟨Finset.sort_nodup ids _, by simp, fun id hid hnot => absurd ((Finset.mem_sort _).2 hid) hnot⟩
    (by
      intro id rest kept hid ⟨hnodup, hkept, hdone⟩
      have hmem : id ∈ ids := (Finset.mem_sort _).1 hid
      have hrest : id ∉ rest := (List.nodup_cons.1 hnodup).1
      have hnew : id ∉ kept := fun h => (hkept id h).2 List.mem_cons_self
      refine (hp id hmem).bind fun keep hkeep => .pure ⟨(List.nodup_cons.1 hnodup).2, ?_, ?_⟩
      · intro id' hid'
        cases keep with
        | false =>
          obtain ⟨hin, hout⟩ := hkept id' hid'
          exact ⟨hin, fun h => hout (List.mem_cons_of_mem _ h)⟩
        | true =>
          rcases Finset.mem_insert.1 hid' with rfl | hid'
          · exact ⟨hmem, hrest⟩
          · obtain ⟨hin, hout⟩ := hkept id' hid'
            exact ⟨hin, fun h => hout (List.mem_cons_of_mem _ h)⟩
      intro id' hin hout
      rcases eq_or_ne id' id with rfl | hne
      · cases keep with
        | false => simpa [hnew] using hkeep
        | true => simpa using hkeep
      have hold := hdone id' hin (by simp [hne, hout])
      cases keep with
      | false => exact hold
      | true => simpa [hne] using hold)
  exact hfold.mono fun kept ⟨_, hkept, hdone⟩ =>
    ⟨fun id hid => (hkept id hid).1, fun id hid => hdone id hid (by simp)⟩

/-- What the filter keeps of one set, next to the other. -/
structure Kept (c : Context ι υ) (R : ι → Option ι) (otherIds ids kept : Finset ι) : Prop where
  subset : kept ⊆ ids
  newer : ∀ id ∈ ids, id ∈ gamma R otherIds → id ∈ kept
  exact_of_resolvable : ∀ id ∈ kept, Resolvable c R id → id ∈ gamma R otherIds

theorem Records.keep_halts (h : Records c t R) (hacyclic : Acyclic R) (otherIds ids : Finset ι) :
    Halts (fun fuel =>
      filterSet (shouldKeepId c fuel t otherIds) ids)
      (Kept c R otherIds ids) := by
  refine (filterSet_halts (Q := fun id b => (id ∈ gamma R otherIds → b = true) ∧
    (b = true → Resolvable c R id → id ∈ gamma R otherIds))
    fun id _ => ?_).mono fun kept ⟨hsub, hall⟩ => ?_
  · refine (h.hasOlderVersionIn_halts hacyclic otherIds id).bind fun answer hanswer => ?_
    cases answer with
    | known b => exact .pure ⟨hanswer.2, fun hb _ => hanswer.1 hb⟩
    | unknown => exact .pure ⟨fun _ => rfl, fun _ hres => absurd hres hanswer⟩
  constructor
  · exact hsub
  · intro id hid hgamma; exact of_decide_eq_true ((hall id hid).1 hgamma)
  · intro id hid; exact (hall id (hsub hid)).2 (decide_eq_true hid)

/-! ## §4 The meet of two sets -/

omit [LinearOrder ι] [DecidableEq υ] in
/-- The intersection is made of the newer versions of those members of one set that are
newer versions of a member of the other. -/
theorem mem_gamma_inter {ids1 ids2 : Finset ι} :
    id ∈ gamma R ids1 ∩ gamma R ids2 ↔ ∃ older, IsVersionOf R id older ∧
      (older ∈ ids2 ∧ older ∈ gamma R ids1 ∨ older ∈ ids1 ∧ older ∈ gamma R ids2) := by
  constructor
  · rintro ⟨⟨older1, hmem1, hof1⟩, older2, hmem2, hof2⟩
    rcases hof1.total hof2 with hof | hof
    · exact ⟨older1, hof1, .inr ⟨hmem1, older2, hmem2, hof⟩⟩
    · exact ⟨older2, hof2, .inl ⟨hmem2, older1, hmem1, hof⟩⟩
  rintro ⟨older, hof, ⟨hmem, hgamma⟩ | ⟨hmem, hgamma⟩⟩
  · exact ⟨gamma_mono hof hgamma, older, hmem, hof⟩
  · exact ⟨⟨older, hmem, hof⟩, gamma_mono hof hgamma⟩

variable {ids1 ids2 kept1 kept2 : Finset ι}

omit [DecidableEq υ] in
theorem Kept.superset (h2 : Kept c R ids1 ids2 kept2) (h1 : Kept c R ids2 ids1 kept1) :
    gamma R ids1 ∩ gamma R ids2 ⊆ gamma R (kept2 ∪ kept1) := by
  intro id hid
  obtain ⟨older, hof, ⟨hmem, hgamma⟩ | ⟨hmem, hgamma⟩⟩ := mem_gamma_inter.1 hid
  · exact ⟨older, Finset.mem_union_left _ (h2.newer older hmem hgamma), hof⟩
  · exact ⟨older, Finset.mem_union_right _ (h1.newer older hmem hgamma), hof⟩

omit [DecidableEq υ] in
theorem Kept.subset_inter (h2 : Kept c R ids1 ids2 kept2) (h1 : Kept c R ids2 ids1 kept1)
    (hres : ∀ id, Resolvable c R id) :
    gamma R (kept2 ∪ kept1) ⊆ gamma R ids1 ∩ gamma R ids2 := by
  rintro id ⟨older, hmem, hof⟩
  refine mem_gamma_inter.2 ⟨older, hof, ?_⟩
  rcases Finset.mem_union.1 hmem with hmem | hmem
  · exact .inl ⟨h2.subset hmem, h2.exact_of_resolvable older hmem (hres older)⟩
  · exact .inr ⟨h1.subset hmem, h1.exact_of_resolvable older hmem (hres older)⟩

omit [LinearOrder ι] in
theorem gamma_eq_empty : gamma R ids = ∅ ↔ ids = ∅ := by
  constructor
  · intro h
    refine Finset.eq_empty_of_forall_notMem fun id hid => ?_
    have hself : id ∈ gamma R ids := ⟨id, hid, .refl⟩
    rw [h] at hself
    exact hself
  · rintro rfl; exact Set.eq_empty_of_forall_notMem fun id ⟨_, hmem, _⟩ => by simp at hmem

/-- `ids` are not bottom, and their versions are at least those in the intersection. -/
theorem Records.meetSet_superset (h : Records c t R) (hacyclic : Acyclic R) (ids1 ids2 : Finset ι) :
    Halts (fun fuel => meetSet c fuel t ids1 ids2)
      fun r => ∀ id ∈ gamma R ids1 ∩ gamma R ids2, ∃ ids, r = .ok ids ∧ id ∈ gamma R ids := by
  unfold meetSet
  by_cases heq : ids1 = ids2
  · simp only [if_pos heq]; exact .pure fun id hid => ⟨ids1, rfl, hid.1⟩
  simp only [if_neg heq]
  refine (h.keep_halts hacyclic ids1 ids2).bind fun kept2 hkept2 => ?_
  refine (h.keep_halts hacyclic ids2 ids1).bind fun kept1 hkept1 => .pure fun id hid => ?_
  have hgamma := hkept2.superset hkept1 hid
  have hne : kept2 ∪ kept1 ≠ ∅ := fun hempty => by
    rw [gamma_eq_empty.2 hempty] at hgamma
    exact hgamma
  exact ⟨kept2 ∪ kept1, if_neg hne, hgamma⟩

theorem Records.meetSet_exact (h : Records c t R)
    (hacyclic : Acyclic R) (hres : ∀ id, Resolvable c R id)
    (hne : ¬(ids1 = ∅ ∧ ids2 = ∅)) :
    Halts (fun fuel => meetSet c fuel t ids1 ids2)
      fun r => (r = .bottom ↔ Disjoint (gamma R ids1) (gamma R ids2)) ∧
        ∀ ids, r = .ok ids → gamma R ids = gamma R ids1 ∩ gamma R ids2 := by
  unfold meetSet
  by_cases heq : ids1 = ids2
  · subst heq
    simp only [if_true]
    refine .pure ⟨⟨fun hbottom => (by cases hbottom), fun hdisjoint => ?_⟩, fun ids hids => ?_⟩
    · have hempty := gamma_eq_empty.1 (disjoint_self.1 hdisjoint)
      exact absurd ⟨hempty, hempty⟩ hne
    · cases hids; rw [Set.inter_self]
  simp only [if_neg heq]
  refine (h.keep_halts hacyclic ids1 ids2).bind fun kept2 hkept2 => ?_
  refine (h.keep_halts hacyclic ids2 ids1).bind fun kept1 hkept1 => .pure ?_
  have hgamma : gamma R (kept2 ∪ kept1) = gamma R ids1 ∩ gamma R ids2 :=
    (hkept2.subset_inter hkept1 hres).antisymm (hkept2.superset hkept1)
  rw [Set.disjoint_iff_inter_eq_empty, ← hgamma, gamma_eq_empty]
  split
  · next hempty => exact ⟨⟨fun _ => hempty, fun _ => rfl⟩, fun ids hids => by cases hids⟩
  next hnonempty =>
  refine ⟨⟨fun hbottom => (by cases hbottom), fun hempty => absurd hempty hnonempty⟩, ?_⟩
  intro ids hids
  cases hids
  rfl

/-! ## §5 The meet of two code ids -/

/-- The meet of two code ids next to the meet of the two sets of one code id: the same where
the older versions are resolvable, else as good or better. -/
structure Agrees (resolvable : Prop) (r : OrUnknownOrBottom ι) (s : OrBottom (Finset ι)) :
    Prop where
  bottom : r = .bottom ↔ s = .bottom
  member : ∀ id, r = .ok id → ∃ ids, s = .ok ids ∧ id ∈ ids
  singleton : resolvable → r = .bottom ∨ ∃ id, r = .ok id ∧ s = .ok {id}

omit [DecidableEq υ] in
theorem filterSet_singleton (p : ι → Except Exn Bool) (id : ι) :
    filterSet p {id} = (p id).map fun keep => if keep then {id} else ∅ := by
  rw [filterSet, Finset.sort_singleton]
  cases hp : p id with
  | error e => simp [hp, Except.map, bind, Except.bind]
  | ok keep => cases keep <;> simp [hp, Except.map, bind, Except.bind, pure, Except.pure]

omit [LinearOrder ι] in
theorem mem_gamma_singleton : id ∈ gamma R {older} ↔ IsVersionOf R id older := by
  simp [gamma]

/-- Whether `should_keep_id` keeps a code id, from the answer of the walk. -/
def kept : OrUnknown Bool → Bool
  | .known b => b
  | .unknown => true

/-- What `meet` answers, from the answers of its two walks. -/
def met (id1 id2 : ι) : OrUnknown Bool → OrUnknown Bool → OrUnknownOrBottom ι
  | .known true, _ => .ok id2
  | _, .known true => .ok id1
  | .known false, .known false => .bottom
  | _, _ => .unknown

/-- What `meet_set` answers. -/
def metSet (id1 id2 : ι) (older2 older1 : OrUnknown Bool) : OrBottom (Finset ι) :=
  let ids := (if kept older2 then {id2} else ∅) ∪ (if kept older1 then {id1} else ∅)
  if ids = ∅ then .bottom else .ok ids

variable {older2 older1 : OrUnknown Bool}

theorem meet_eq {fuel : ℕ} (hne : id1 ≠ id2)
    (h2 : hasOlderVersionIn c fuel t id2 {id1} = .ok older2)
    (h1 : hasOlderVersionIn c fuel t id1 {id2} = .ok older1) :
    meet c fuel t id1 id2 = .ok (met id1 id2 older2 older1) := by
  rw [meet, if_neg hne, h2, h1]
  rcases older2 with (_ | _) | _ <;> rcases older1 with (_ | _) | _ <;> rfl

theorem meetSet_eq {fuel : ℕ} (hne : id1 ≠ id2)
    (h2 : hasOlderVersionIn c fuel t id2 {id1} = .ok older2)
    (h1 : hasOlderVersionIn c fuel t id1 {id2} = .ok older1) :
    meetSet c fuel t {id1} {id2} = .ok (metSet id1 id2 older2 older1) := by
  have hkeep : ∀ {id otherIds} {answer : OrUnknown Bool},
      hasOlderVersionIn c fuel t id otherIds = .ok answer →
      shouldKeepId c fuel t otherIds id = .ok (kept answer) := by
    intro id otherIds answer hanswer
    rw [shouldKeepId, hanswer]
    cases answer <;> rfl
  rw [meetSet, if_neg fun hs => hne (Finset.singleton_injective hs), filterSet_singleton,
    filterSet_singleton, hkeep h2, hkeep h1]
  rfl

omit [DecidableEq υ] in
theorem agrees_of_answers (hacyclic : Acyclic R)
    (hne : id1 ≠ id2) (h2 : Answers c R id2 {id1} older2)
    (h1 : Answers c R id1 {id2} older1) :
    Agrees (Resolvable c R id1 ∧ Resolvable c R id2)
      (met id1 id2 older2 older1) (metSet id1 id2 older2 older1) := by
  cases older2 with
  | unknown =>
    rcases older1 with (_ | _) | _ <;>
      exact ⟨by simp [met, metSet, kept], by simp [met, metSet, kept], fun hres => absurd hres.2 h2⟩
  | known b2 =>
    cases older1 with
    | unknown =>
      cases b2 <;>
        exact ⟨by simp [met, metSet, kept], by simp [met, metSet, kept],
          fun hres => absurd hres.1 h1⟩
    | known b1 =>
      cases b2 with
      | false => cases b1 <;> constructor <;> simp [met, metSet, kept]
      | true =>
        cases b1 with
        | false => constructor <;> simp [met, metSet, kept]
        | true =>
          -- Each would be a newer version of the other.
          have h2 := mem_gamma_singleton.1 (h2.1 rfl)
          have h1 := mem_gamma_singleton.1 (h1.1 rfl)
          exact absurd (hacyclic.antisymm h1 h2) hne

theorem Records.meet_agrees (h : Records c t R) (hacyclic : Acyclic R) (id1 id2 : ι) :
    Halts (fun fuel => do
        let r ← meet c fuel t id1 id2
        let s ← meetSet c fuel t {id1} {id2}
        pure (r, s))
      fun rs => Agrees (Resolvable c R id1 ∧ Resolvable c R id2) rs.1 rs.2 := by
  by_cases heq : id1 = id2
  · subst heq
    simp only [meet, meetSet]
    refine .pure ⟨by simp, fun id hid => ⟨{id1}, rfl, ?_⟩, fun _ => .inr ⟨id1, rfl, rfl⟩⟩
    cases hid
    exact Finset.mem_singleton_self id1
  obtain ⟨N2, older2, hanswer2, hwalk2⟩ := h.hasOlderVersionIn_halts hacyclic {id1} id2
  obtain ⟨N1, older1, hanswer1, hwalk1⟩ := h.hasOlderVersionIn_halts hacyclic {id2} id1
  refine ⟨max N1 N2, (met id1 id2 older2 older1, metSet id1 id2 older2 older1),
    agrees_of_answers hacyclic heq hanswer2 hanswer1, fun fuel hfuel => ?_⟩
  have hrun2 := hwalk2 fuel (le_of_max_le_right hfuel)
  have hrun1 := hwalk1 fuel (le_of_max_le_left hfuel)
  simp only [meet_eq heq hrun2 hrun1, meetSet_eq heq hrun2 hrun1]
  rfl

/-! ## §6 Both meets -/

/-- Two sets, not both empty, meet in the intersection of their versions, in bottom exactly
when it is empty, if every code id is resolvable; in a superset in any case. The meet of
two code ids agrees with the meet of two sets of one. -/
theorem Records.meet_exact (h : Records c t R) (hacyclic : Acyclic R) :
    (∀ ids1 ids2 : Finset ι, (∀ id, Resolvable c R id) → ¬(ids1 = ∅ ∧ ids2 = ∅) →
      Halts (fun fuel => meetSet c fuel t ids1 ids2)
        fun r => (r = .bottom ↔ Disjoint (gamma R ids1) (gamma R ids2)) ∧
          ∀ ids, r = .ok ids → gamma R ids = gamma R ids1 ∩ gamma R ids2) ∧
    (∀ ids1 ids2 : Finset ι, Halts (fun fuel => meetSet c fuel t ids1 ids2)
        fun r => ∀ id ∈ gamma R ids1 ∩ gamma R ids2, ∃ ids, r = .ok ids ∧ id ∈ gamma R ids) ∧
    ∀ id1 id2,
      Halts (fun fuel => do
          let r ← meet c fuel t id1 id2
          let s ← meetSet c fuel t {id1} {id2}
          pure (r, s))
        fun rs => Agrees (Resolvable c R id1 ∧ Resolvable c R id2) rs.1 rs.2 :=
  ⟨fun _ _ => h.meetSet_exact hacyclic, h.meetSet_superset hacyclic, h.meet_agrees hacyclic⟩

theorem acyclic_of_rank {R : ℕ → Option ℕ} (rank : ℕ → ℕ) (bound : ℕ)
    (hbound : ∀ id, bound ≤ id → R id = none)
    (hrank : ∀ id older, R id = some older → rank older < rank id) : Acyclic R where
  finite := by
    refine (Set.finite_Iio bound).subset fun id hid => ?_
    by_contra hle
    exact hid (hbound id (not_lt.1 hle))
  no_cycle id hcycle := by
    have hlt : ∀ older, TransGen (Step R) id older → rank older < rank id := by
      intro older h
      induction h with
      | single hstep => exact hrank _ _ hstep
      | tail _ hstep ih => exact (hrank _ _ hstep).trans ih
    exact lt_irrefl _ (hlt id hcycle)

/-- One binding, of the current unit. -/
theorem records_one (getCompilationUnit : ℕ → ℕ) (newer older : ℕ)
    (hcurrent : getCompilationUnit newer = 0) :
    Records ⟨getCompilationUnit, 0, fun _ => none⟩ ((∅ : T ℕ).insert newer older)
      fun id => if newer = id then some older else none := by
  have hget : ∀ id : ℕ, ((∅ : T ℕ).insert newer older)[id]? =
      if newer = id then some older else none := by
    intro id
    rw [Lib.getElem?_insert, Std.ExtTreeMap.getElem?_empty]
  constructor
  · intro id older' h; rwa [hget] at h
  · intro id _; rw [hget]
  · intro unit table h; cases h
  · intro id table h; cases h
  intro id older' h hne
  split at h
  · next heq => exact absurd (heq ▸ hcurrent) hne
  · cases h

/-- Every code id is of the current unit. -/
def oneUnit : Context ℕ ℕ := ⟨fun _ => 0, 0, fun _ => none⟩

/-- The code id 2 is of another unit, which the resolver cannot see. -/
def hiddenUnit : Context ℕ ℕ := ⟨fun id => if id = 2 then 1 else 0, 0, fun _ => none⟩

theorem Records.meet_exact_newer :
    Halts (fun fuel => meetSet oneUnit fuel ((∅ : T ℕ).insert 2 1) {1} {2})
      fun r => ¬Disjoint (gamma (fun id => if 2 = id then some 1 else none) {1})
        (gamma (fun id => if 2 = id then some 1 else none) {2}) ∧ r ≠ .bottom := by
  have hacyclic : Acyclic fun id => if 2 = id then some 1 else none :=
    acyclic_of_rank id 3 (fun id hid => if_neg (by omega)) fun id older h => by
      split at h
      · next heq => cases h; subst heq; decide
      · cases h
  have hmeet := (Records.meet_exact (records_one (fun _ => 0) 2 1 rfl) hacyclic).1 {1} {2}
    (fun id older _ hne => absurd rfl hne) (by simp)
  refine hmeet.mono fun r hr => ?_
  have hmem : 2 ∈ gamma (fun id => if 2 = id then some 1 else none) {1} :=
    mem_gamma_singleton.2 (.single rfl)
  have hself : 2 ∈ gamma (fun id => if 2 = id then some 1 else none) {2} :=
    mem_gamma_singleton.2 .refl
  have hnot := Set.not_disjoint_iff.2 ⟨2, hmem, hself⟩
  exact ⟨hnot, fun hbottom => hnot (hr.1.1 hbottom)⟩

/-- Two empty sets do not meet in bottom. Where the unit of an older version is hidden,
`meet` knows better than `meet_set`. -/
theorem empty_and_hidden_meets :
    (Disjoint (gamma (fun _ => none) (∅ : Finset ℕ)) (gamma (fun _ => none) (∅ : Finset ℕ)) ∧
      (∀ id, Resolvable oneUnit (fun _ : ℕ => none) id) ∧
      ∀ fuel, meetSet oneUnit fuel (∅ : T ℕ) ∅ ∅ = .ok (.ok ∅)) ∧
    Records hiddenUnit ((∅ : T ℕ).insert 1 2) (fun id => if 1 = id then some 2 else none) ∧
    meet hiddenUnit 2 ((∅ : T ℕ).insert 1 2) 1 2 = .ok (.ok 1) ∧
    meetSet hiddenUnit 2 ((∅ : T ℕ).insert 1 2) {1} {2} = .ok (.ok {1, 2}) := by
  have h2 : hasOlderVersionIn hiddenUnit 2 ((∅ : T ℕ).insert 1 2) 2 {1} = .ok .unknown := by
    simp [hasOlderVersionIn, hiddenUnit, pure, Except.pure]
  have h1 : hasOlderVersionIn hiddenUnit 2 ((∅ : T ℕ).insert 1 2) 1 {2} = .ok (.known true) := by
    simp [hasOlderVersionIn, pure, Except.pure]
  refine ⟨⟨?_, fun id older _ hne => absurd rfl hne, fun fuel => rfl⟩, records_one _ 1 2 rfl, ?_,
    ?_⟩
  · rw [gamma_eq_empty.2 rfl]; exact disjoint_bot_left
  · exact meet_eq (by decide) h2 h1
  rw [meetSet_eq (by decide) h2 h1]
  simp only [metSet, kept, if_true, Finset.union_comm {2} {1}]
  rfl

end Oxcaml.Flambda2.CodeAgeRelation
