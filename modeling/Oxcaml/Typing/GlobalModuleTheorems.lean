/-
Oxcaml.Typing.GlobalModuleTheorems — substitution into the names of instances is an
action of the composition of substitutions.

`image` is the result of `subst0` without its flag, and `subst_image` connects the two.
Lists of arguments are compared by their parameters: two lists that are strictly sorted
are equal when they have the same elements, which is how the merges of one substitution
after another are identified.
-/
import Mathlib.Tactic
import Oxcaml.Typing.GlobalModule
import Mathlib.Data.String.Basic

set_option linter.all false

namespace Oxcaml.Typing.GlobalModule

open List (mem_cons merge_perm_append)

variable {ν α β : Type}

/-- Induction over the arguments. -/
theorem Global.ind {P : Global ν → Prop}
    (h : ∀ head visible hidden, (∀ a ∈ visible, P a.value) → (∀ a ∈ hidden, P a.value) →
      P (.create head visible hidden)) (t : Global ν) : P t := by
  refine Global.rec (motive_1 := P) (motive_2 := fun l => ∀ a ∈ l, P a.value)
    (motive_3 := fun a => P a.value) ?_ ?_ ?_ ?_ t
  · intro head visible hidden hv hh; exact h head visible hidden hv hh
  · intro a ha; simp at ha
  · intro a l ha hl b hb
    rcases mem_cons.1 hb with rfl | hb
    · exact ha
    · exact hl b hb
  · intro param value hvalue; exact hvalue

/-! ## §1 Lists of arguments -/

def params (l : List (Argument ν α)) : List ν := l.map (·.param)

/-- The same parameter with another value. -/
def Argument.map (f : α → β) (a : Argument ν α) : Argument ν β := ⟨a.param, f a.value⟩

@[simp] theorem params_nil : params ([] : List (Argument ν α)) = [] := rfl

@[simp] theorem params_cons (a : Argument ν α) (l : List (Argument ν α)) :
    params (a :: l) = a.param :: params l := rfl

@[simp] theorem params_append (l l' : List (Argument ν α)) :
    params (l ++ l') = params l ++ params l' := List.map_append

@[simp] theorem params_map (f : α → β) (l : List (Argument ν α)) :
    params (l.map (Argument.map f)) = params l := by
  simp [params, Argument.map]

variable {l : List (Argument ν α)} {a : Argument ν α}

theorem mem_params (h : a ∈ l) : a.param ∈ params l := List.mem_map_of_mem h

variable [LinearOrder ν]

/-- Sorted by parameter, without a parameter twice. -/
def Strict (l : List (Argument ν α)) : Prop := (params l).Pairwise (· < ·)

variable {l l' : List (Argument ν α)}

theorem Strict.eq_of_perm (h : Strict l) (h' : Strict l') (hperm : l.Perm l') : l = l' := by
  unfold Strict params at h h'
  rw [List.pairwise_map] at h h'
  refine hperm.eq_of_pairwise ?_ h h'
  intro a b _ _ hab hba
  exact absurd hba hab.asymm

theorem leByParam_trans (a b c : Argument ν α) (hab : leByParam a b) (hbc : leByParam b c) :
    leByParam a c := by
  simp only [leByParam, decide_eq_true_eq] at *
  exact hab.trans hbc

theorem leByParam_total (a b : Argument ν α) : leByParam a b || leByParam b a := by
  simp only [leByParam, Bool.or_eq_true, decide_eq_true_eq]
  exact le_total _ _

theorem merge_sorted
    (h : l.Pairwise fun a b => a.param ≤ b.param) (h' : l'.Pairwise fun a b => a.param ≤ b.param) :
    (l.merge l' leByParam).Pairwise fun a b => a.param ≤ b.param := by
  have hmerge := List.pairwise_merge leByParam_trans leByParam_total l l'
    (by simpa [leByParam] using h) (by simpa [leByParam] using h')
  simpa [leByParam] using hmerge

theorem strict_of_sorted (h : l.Pairwise fun a b => a.param ≤ b.param)
    (hnodup : (params l).Nodup) : Strict l := by
  unfold Strict params at *
  rw [List.pairwise_map]
  rw [List.Nodup, List.pairwise_map] at hnodup
  exact (h.and hnodup).imp fun hab => lt_of_le_of_ne hab.1 hab.2

theorem Strict.sorted (h : Strict l) : l.Pairwise fun a b => a.param ≤ b.param := by
  unfold Strict params at h
  rw [List.pairwise_map] at h
  exact h.imp le_of_lt

theorem Strict.nodup (h : Strict l) : (params l).Nodup :=
  h.imp ne_of_lt

/-- Two strict lists without a common parameter have a strict merge. -/
theorem Strict.merge (h : Strict l) (h' : Strict l')
    (hdisjoint : (params l).Disjoint (params l')) : Strict (l.merge l' leByParam) := by
  refine strict_of_sorted (merge_sorted h.sorted h'.sorted) ?_
  have hperm : (params (l.merge l' leByParam)).Perm (params l ++ params l') := by
    have hmerge : (l.merge l' leByParam).Perm (l ++ l') := merge_perm_append leByParam
    have hmap := hmerge.map (·.param)
    rwa [List.map_append] at hmap
  rw [hperm.nodup_iff]
  exact List.nodup_append'.2 ⟨h.nodup, h'.nodup, hdisjoint⟩

/-! ## §2 The result of a substitution -/

/-- The result of `subst0`. -/
def image (s : Subst ν) (t : Global ν) : Global ν := (subst0 s t false).1

/-- The flag of `subst0`. -/
def touched (s : Subst ν) (t : Global ν) : Bool := (subst0 s t false).2

/-- The hidden arguments that a substitution reveals. -/
def matching (s : Subst ν) (hidden : List (Argument ν (Global ν))) : List (Argument ν (Global ν)) :=
  hidden.filterMap fun a => (findInParameterMap a.value s).map (Argument.mk a.param)

/-- The hidden arguments that stay hidden. -/
def nonMatching (s : Subst ν) (hidden : List (Argument ν (Global ν))) :
    List (Argument ν (Global ν)) :=
  hidden.filter fun a => (findInParameterMap a.value s).isNone

variable {s s1 s2 : Subst ν} {t : Global ν} {head : ν}
  {visible hidden : List (Argument ν (Global ν))}

omit [LinearOrder ν] in
theorem partitionHidden_eq (s : Subst ν) (hidden : List (Argument ν (Global ν))) (changed : Bool) :
    partitionHidden s hidden changed =
      (matching s hidden, nonMatching s hidden, changed || !(matching s hidden).isEmpty) := by
  induction hidden generalizing changed with
  | nil => simp [partitionHidden, matching, nonMatching]
  | cons a hidden ih =>
    unfold partitionHidden
    cases hf : findInParameterMap a.value s with
    | none | some rhs => simp only [ih]; simp [matching, nonMatching, hf]

theorem revealHidden_eq (changed : Bool) : revealHidden head visible hidden s changed =
      (.create head (visible.merge (matching s hidden) leByParam) (nonMatching s hidden),
        changed || !(matching s hidden).isEmpty) := by
  unfold revealHidden
  rw [partitionHidden_eq]
  rfl

theorem subst0Alist_of {l : List (Argument ν (Global ν))} (hl : ∀ a ∈ l, ∀ changed,
      subst0 s a.value changed = (image s a.value, changed || touched s a.value))
    (changed : Bool) :
    subst0Alist s l changed =
      (l.map (Argument.map (image s)), changed || l.any fun a => touched s a.value) := by
  induction l generalizing changed with
  | nil => simp [subst0Alist]
  | cons a l ih =>
    have ha := hl a List.mem_cons_self changed
    have ih := ih (fun b hb => hl b (List.mem_cons_of_mem _ hb)) (changed || touched s a.value)
    simp only [subst0Alist, ha, ih, Bool.or_assoc]
    rfl

/-- The flag does not matter for the result, and it is never reset. -/
theorem subst0_flag (s : Subst ν) (t : Global ν) (changed : Bool) :
    subst0 s t changed = (image s t, changed || touched s t) := by
  induction t using Global.ind generalizing changed with
  | h head visible hidden hv _ =>
    unfold image touched
    simp only [subst0]
    cases findInParameterMap (.create head visible hidden) s with
    | some rhs => simp
    | none =>
      simp [subst0Alist_of fun a ha => hv a ha, revealHidden_eq, Bool.or_assoc]

theorem subst0Alist_eq (s : Subst ν) (l : List (Argument ν (Global ν))) (changed : Bool) :
    subst0Alist s l changed =
      (l.map (Argument.map (image s)), changed || l.any fun a => touched s a.value) :=
  subst0Alist_of (fun a _ => subst0_flag s a.value) changed

theorem image_of_some {rhs : Global ν} (h : findInParameterMap t s = some rhs) :
    image s t = rhs := by
  cases t with
  | create head visible hidden => unfold image; rw [subst0, h]

theorem image_of_none (h : findInParameterMap (.create head visible hidden) s = none) :
    image s (.create head visible hidden) =
      .create head ((visible.map (Argument.map (image s))).merge (matching s hidden) leByParam)
        (nonMatching s hidden) := by
  unfold image
  rw [subst0, h]
  simp only [revealHidden_eq, subst0Alist_eq]
  rfl

/-- A flag that stays down means that nothing has changed. -/
theorem image_of_untouched (h : touched s t = false) : image s t = t := by
  induction t using Global.ind with
  | h head visible hidden hv _ =>
    unfold touched at h
    cases hf : findInParameterMap (.create head visible hidden) s with
    | some rhs => simp [subst0, hf] at h
    | none =>
      simp only [subst0, hf, subst0Alist_eq, revealHidden_eq, Bool.false_or, Bool.or_eq_false_iff,
        Bool.not_eq_false', List.isEmpty_iff, List.any_eq_false] at h
      obtain ⟨hflag, hmatch⟩ := h
      have hvisible : visible.map (Argument.map (image s)) = visible := by
        calc visible.map (Argument.map (image s))
          _ = visible.map id := by
            refine List.map_congr_left fun a ha => ?_
            have hvalue := hv a ha (by simpa using hflag a ha)
            simp [Argument.map, hvalue]
          _ = visible := List.map_id visible
      have hnone : nonMatching s hidden = hidden := by
        refine List.filter_eq_self.2 fun a ha => ?_
        have hall := List.filterMap_eq_nil_iff.1 hmatch a ha
        simpa using hall
      rw [image_of_none hf, hvisible, hmatch, hnone, List.merge_right]

theorem subst_image (t : Global ν) (s : Subst ν) : (subst t s).1 = image s t := by
  unfold subst
  rw [subst0_flag]
  cases h : touched s t with
  | true => simp
  | false => simp [image_of_untouched h]

/-! ## §3 Well-formed names -/

/-- The arguments are sorted and differ, and the hidden ones are the bare parameters. -/
inductive WellFormed : Global ν → Prop
  | create {head : ν} {visible hidden : List (Argument ν (Global ν))} :
      Strict visible → Strict hidden → (params visible).Disjoint (params hidden) →
      (∀ a ∈ hidden, a.value = ofParameterName a.param) →
      (∀ a ∈ visible, WellFormed a.value) → WellFormed (.create head visible hidden)

omit [LinearOrder ν] in
theorem findInParameterMap_bare (param : ν) (s : Subst ν) :
    findInParameterMap (ofParameterName param) s = s param := rfl

omit [LinearOrder ν] in
theorem params_matching_sublist (s : Subst ν) (hidden : List (Argument ν (Global ν))) :
    (params (matching s hidden)).Sublist (params hidden) := by
  induction hidden with
  | nil => exact List.Sublist.slnil
  | cons a hidden ih =>
    unfold matching at *
    cases hf : findInParameterMap a.value s with
    | none => simpa [hf] using ih.cons a.param
    | some rhs => simpa [hf] using ih.cons_cons a.param

omit [LinearOrder ν] in
theorem params_nonMatching_sublist (s : Subst ν) (hidden : List (Argument ν (Global ν))) :
    (params (nonMatching s hidden)).Sublist (params hidden) :=
  List.filter_sublist.map _

omit [LinearOrder ν] in
/-- A hidden argument is revealed or stays hidden. -/
theorem disjoint_matching (s : Subst ν) (hnodup : (params hidden).Nodup) :
    (params (matching s hidden)).Disjoint (params (nonMatching s hidden)) := by
  induction hidden with
  | nil => simp [matching]
  | cons a hidden ih =>
    rw [params_cons, List.nodup_cons] at hnodup
    have ih := ih hnodup.2
    have hm : a.param ∉ params (matching s hidden) := fun h =>
      hnodup.1 ((params_matching_sublist s hidden).subset h)
    have hn : a.param ∉ params (nonMatching s hidden) := fun h =>
      hnodup.1 ((params_nonMatching_sublist s hidden).subset h)
    unfold matching nonMatching at *
    cases hf : findInParameterMap a.value s with
    | none => simpa [hf, List.disjoint_cons_right] using ⟨hm, ih⟩
    | some rhs => simpa [hf, List.disjoint_cons_left] using ⟨hn, ih⟩

theorem Strict.matching (s : Subst ν) (h : Strict hidden) : Strict (matching s hidden) :=
  List.Pairwise.sublist (params_matching_sublist s hidden) h

theorem Strict.nonMatching (s : Subst ν) (h : Strict hidden) : Strict (nonMatching s hidden) :=
  List.Pairwise.sublist (params_nonMatching_sublist s hidden) h

theorem Strict.map (h : Strict l) (f : α → β) : Strict (l.map (Argument.map f)) := by
  unfold Strict
  rw [params_map]
  exact h

theorem params_merge (l l' : List (Argument ν α)) :
    (params (l.merge l' leByParam)).Perm (params l ++ params l') := by
  have hmerge : (l.merge l' leByParam).Perm (l ++ l') := merge_perm_append leByParam
  have hmap := hmerge.map (·.param)
  rwa [List.map_append] at hmap

/-- The arguments are sorted and differ. -/
structure Arranged (visible hidden : List (Argument ν (Global ν))) : Prop where
  strict_visible : Strict visible
  strict_hidden : Strict hidden
  disjoint : (params visible).Disjoint (params hidden)

theorem Arranged.map (h : Arranged visible hidden) (f : Global ν → Global ν) :
    Arranged (visible.map (Argument.map f)) hidden := by
  refine ⟨h.strict_visible.map f, h.strict_hidden, ?_⟩
  rw [params_map]
  exact h.disjoint

/-- The merge keeps the order. -/
theorem Arranged.reveal (h : Arranged visible hidden) (s : Subst ν) :
    Arranged (visible.merge (matching s hidden) leByParam) (nonMatching s hidden) := by
  have hmatch := params_matching_sublist s hidden
  have hnon := params_nonMatching_sublist s hidden
  refine ⟨h.strict_visible.merge (h.strict_hidden.matching s) ?_, h.strict_hidden.nonMatching s, ?_⟩
  · intro p hp hm; exact h.disjoint hp (hmatch.subset hm)
  intro p hp hn
  rcases List.mem_append.1 ((params_merge _ _).mem_iff.1 hp) with hp | hp
  · exact h.disjoint hp (hnon.subset hn)
  · exact disjoint_matching s h.strict_hidden.nodup hp hn

/-- Well-formed values make a well-formed name. -/
theorem image_wellFormed (ht : WellFormed t) (hs : ∀ p u, s p = some u → WellFormed u) :
    WellFormed (image s t) := by
  induction ht with
  | @create head visible hidden hvisible hhidden hdisjoint hbare _ ih =>
    cases hf : findInParameterMap (.create head visible hidden) s with
    | some rhs =>
      rw [image_of_some hf]
      cases visible with
      | cons a visible => simp [findInParameterMap] at hf
      | nil =>
        cases hidden with
        | cons a hidden => simp [findInParameterMap] at hf
        | nil => exact hs head rhs hf
    | none =>
      rw [image_of_none hf]
      have harranged : Arranged visible hidden := ⟨hvisible, hhidden, hdisjoint⟩
      have hreveal := (harranged.map (image s)).reveal s
      refine .create hreveal.strict_visible hreveal.strict_hidden hreveal.disjoint ?_ ?_
      · intro a ha; exact hbare a (List.mem_of_mem_filter ha)
      intro a ha
      have hperm : ((visible.map (Argument.map (image s))).merge (matching s hidden)
          leByParam).Perm _ := merge_perm_append leByParam
      rcases List.mem_append.1 (hperm.mem_iff.1 ha) with ha | ha
      · obtain ⟨b, hb, rfl⟩ := List.mem_map.1 ha; exact ih b hb
      obtain ⟨b, hb, hrhs⟩ := List.mem_filterMap.1 ha
      rw [hbare b hb] at hrhs
      obtain ⟨u, hu, rfl⟩ := Option.map_eq_some_iff.1 hrhs
      exact hs _ u hu

/-! ## §4 Composition -/

/-- First the one substitution, then the other. -/
def compose (s1 s2 : Subst ν) : Subst ν := fun p =>
  match s1 p with
  | some t => some (subst t s2).1
  | none => s2 p

theorem compose_of_some {p : ν} (h : s1 p = some t) : compose s1 s2 p = some (image s2 t) := by
  unfold compose
  rw [h]
  exact congrArg some (subst_image t s2)

theorem compose_of_none {p : ν} (h : s1 p = none) : compose s1 s2 p = s2 p := by
  unfold compose
  rw [h]

section

variable (hbare : ∀ a ∈ hidden, a.value = ofParameterName a.param)
include hbare

/-- What both substitutions reveal. -/
theorem matching_compose :
    ((matching s1 hidden).map (Argument.map (image s2)) ++
      matching s2 (nonMatching s1 hidden)).Perm (matching (compose s1 s2) hidden) := by
  induction hidden with
  | nil => exact List.Perm.refl _
  | cons a hidden ih =>
    have ih := ih fun b hb => hbare b (List.mem_cons_of_mem _ hb)
    have ha := hbare a List.mem_cons_self
    have hs1 : findInParameterMap a.value s1 = s1 a.param := by rw [ha, findInParameterMap_bare]
    have hs2 : findInParameterMap a.value s2 = s2 a.param := by rw [ha, findInParameterMap_bare]
    have hs12 : findInParameterMap a.value (compose s1 s2) = compose s1 s2 a.param := by
      rw [ha, findInParameterMap_bare]
    unfold matching nonMatching at *
    cases h1 : s1 a.param with
    | some u =>
      rw [compose_of_some h1] at hs12
      rw [h1] at hs1
      simpa [hs1, hs12, Argument.map] using ih
    | none =>
      rw [compose_of_none h1] at hs12
      rw [h1] at hs1
      cases h2 : s2 a.param with
      | none => rw [h2] at hs2 hs12; simpa [hs1, hs2, hs12] using ih
      | some u =>
        rw [h2] at hs2 hs12
        simpa [hs1, hs2, hs12] using List.perm_middle.trans (ih.cons _)

theorem nonMatching_compose :
    nonMatching s2 (nonMatching s1 hidden) = nonMatching (compose s1 s2) hidden := by
  unfold nonMatching
  rw [List.filter_filter]
  refine List.filter_congr fun a ha => ?_
  rw [hbare a ha]
  simp only [findInParameterMap_bare]
  cases h1 : s1 a.param with
  | some u => simp [compose_of_some h1]
  | none => simp [compose_of_none h1]

end

omit [LinearOrder ν] in
theorem find_of_arguments (h : visible ≠ [] ∨ hidden ≠ []) (s : Subst ν) :
    findInParameterMap (.create head visible hidden) s = none := by
  cases visible with
  | cons a visible => rfl
  | nil =>
    cases hidden with
    | cons a hidden => rfl
    | nil => simp at h

omit [LinearOrder ν] in
theorem length_partition (s : Subst ν) (hidden : List (Argument ν (Global ν))) :
    (matching s hidden).length + (nonMatching s hidden).length = hidden.length := by
  induction hidden with
  | nil => rfl
  | cons a hidden ih =>
    unfold matching nonMatching at *
    cases hf : findInParameterMap a.value s with
    | none | some u => simp [hf]; omega

/-- What has arguments still has arguments after a substitution. -/
theorem reveal_arguments (h : visible ≠ [] ∨ hidden ≠ []) (s : Subst ν) (f : Global ν → Global ν) :
    (visible.map (Argument.map f)).merge (matching s hidden) leByParam ≠ [] ∨
      nonMatching s hidden ≠ [] := by
  have hlen := length_partition s hidden
  by_contra hnone
  simp only [ne_eq, ← List.length_eq_zero_iff, List.length_merge,
    List.length_map] at hnone h
  omega

/-- One substitution after another is their composition. -/
theorem image_compose (ht : WellFormed t) : image s2 (image s1 t) = image (compose s1 s2) t := by
  induction ht with
  | @create head visible hidden hvisible hhidden hdisjoint hbare _ ih =>
    by_cases hargs : visible ≠ [] ∨ hidden ≠ []
    · rw [image_of_none (find_of_arguments hargs s1),
        image_of_none (find_of_arguments (reveal_arguments hargs s1 _) s2),
        image_of_none (find_of_arguments hargs _), nonMatching_compose hbare]
      congr 1
      -- both lists are strict, and have the same arguments
      have harranged : Arranged visible hidden := ⟨hvisible, hhidden, hdisjoint⟩
      have hleft := (((harranged.map (image s1)).reveal s1).map (image s2)).reveal s2
      have hright := (harranged.map (image (compose s1 s2))).reveal (compose s1 s2)
      have hmap : (visible.map (Argument.map (image s1))).map (Argument.map (image s2)) =
          visible.map (Argument.map (image (compose s1 s2))) := by
        rw [List.map_map]
        refine List.map_congr_left fun a ha => ?_
        simp [Argument.map, ih a ha]
      refine hleft.strict_visible.eq_of_perm hright.strict_visible ?_
      have hfirst : ((visible.map (Argument.map (image s1))).merge (matching s1 hidden)
          leByParam).Perm _ := merge_perm_append leByParam
      have hsecond := hfirst.map (Argument.map (image s2))
      rw [List.map_append, hmap] at hsecond
      refine (merge_perm_append leByParam).trans ?_
      refine (hsecond.append_right _).trans ?_
      rw [List.append_assoc]
      exact ((matching_compose hbare).append_left _).trans (merge_perm_append leByParam).symm
    simp only [not_or, not_not] at hargs
    obtain ⟨rfl, rfl⟩ := hargs
    have hfind : ∀ s : Subst ν, findInParameterMap (.create head [] []) s = s head := fun s => rfl
    have himage : ∀ s : Subst ν, s head = none →
        image s (.create head [] []) = .create head [] [] := by
      intro s hs
      rw [image_of_none ((hfind s).trans hs)]
      simp [matching, nonMatching]
    cases h1 : s1 head with
    | some u =>
      have hcompose : compose s1 s2 head = some (image s2 u) := compose_of_some h1
      rw [image_of_some ((hfind s1).trans h1), image_of_some ((hfind _).trans hcompose)]
    | none =>
      have hcompose : compose s1 s2 head = s2 head := compose_of_none h1
      rw [himage s1 h1]
      cases h2 : s2 head with
      | none => rw [himage s2 h2, himage _ (hcompose.trans h2)]
      | some u =>
        rw [image_of_some ((hfind s2).trans h2),
          image_of_some ((hfind _).trans (hcompose.trans h2))]

/-! ## §5 Complete names -/

omit [LinearOrder ν] in
theorem isCompleteAll_iff {l : List (Argument ν (Global ν))} :
    isCompleteAll l ↔ ∀ a ∈ l, isComplete a.value := by
  induction l with
  | nil => simp [isCompleteAll]
  | cons a l ih => simp [isCompleteAll, ih]

omit [LinearOrder ν] in
theorem isComplete_iff :
    isComplete (.create head visible hidden) ↔ hidden = [] ∧ ∀ a ∈ visible, isComplete a.value := by
  cases hidden with
  | nil => simp [isComplete, isCompleteAll_iff]
  | cons a hidden => simp [isComplete]

/-- The parameter is a hidden one of the name or of a value in it. -/
inductive OccursHidden (p : ν) : Global ν → Prop
  | here {head : ν} {visible hidden : List (Argument ν (Global ν))} :
      p ∈ params hidden → OccursHidden p (.create head visible hidden)
  | value {head : ν} {visible hidden : List (Argument ν (Global ν))} {a : Argument ν (Global ν)} :
      a ∈ visible → OccursHidden p a.value → OccursHidden p (.create head visible hidden)

/-- The bare name is the name or a value in it. -/
inductive OccursBare (p : ν) : Global ν → Prop
  | here : OccursBare p (ofParameterName p)
  | value {head : ν} {visible hidden : List (Argument ν (Global ν))} {a : Argument ν (Global ν)} :
      a ∈ visible → OccursBare p a.value → OccursBare p (.create head visible hidden)

theorem image_isComplete (ht : WellFormed t)
    (hhidden : ∀ p, OccursHidden p t → ∃ u, s p = some u ∧ isComplete u)
    (hbare : ∀ p u, OccursBare p t → s p = some u → isComplete u) : isComplete (image s t) := by
  induction ht with
  | @create head visible hidden _ _ _ hvalues _ ih =>
    cases hf : findInParameterMap (.create head visible hidden) s with
    | some rhs =>
      rw [image_of_some hf]
      cases visible with
      | cons a visible => simp [findInParameterMap] at hf
      | nil =>
        cases hidden with
        | cons a hidden => simp [findInParameterMap] at hf
        | nil => exact hbare head rhs .here hf
    | none =>
      rw [image_of_none hf, isComplete_iff]
      refine ⟨?_, fun a ha => ?_⟩
      · refine List.filter_eq_nil_iff.2 fun a ha => ?_
        obtain ⟨u, hu, -⟩ := hhidden a.param (.here (mem_params ha))
        rw [hvalues a ha, findInParameterMap_bare, hu]
        simp
      have hperm : ((visible.map (Argument.map (image s))).merge (matching s hidden)
          leByParam).Perm _ := merge_perm_append leByParam
      rcases List.mem_append.1 (hperm.mem_iff.1 ha) with ha | ha
      · obtain ⟨b, hb, rfl⟩ := List.mem_map.1 ha
        exact ih b hb (fun p hp => hhidden p (.value hb hp)) fun p u hp =>
          hbare p u (.value hb hp)
      obtain ⟨b, hb, hrhs⟩ := List.mem_filterMap.1 ha
      obtain ⟨u, hu, hcomplete⟩ := hhidden b.param (.here (mem_params hb))
      rw [hvalues b hb, findInParameterMap_bare, hu] at hrhs
      simp only [Option.map_some, Option.some.injEq] at hrhs
      rw [← hrhs]
      exact hcomplete

/-! ## §6 Creation -/

theorem strict_cons : Strict (a :: l) ↔ (∀ p ∈ params l, a.param < p) ∧ Strict l := by
  simp [Strict]

theorem checkUniquenessFrom_iff {n : ν} {v : α}
    (h : (⟨n, v⟩ :: l : List (Argument ν α)).Pairwise fun a b => a.param ≤ b.param) :
    checkUniquenessFrom n v l = .ok () ↔ Strict (⟨n, v⟩ :: l) := by
  induction l generalizing n v with
  | nil => simp [checkUniquenessFrom, Strict]
  | cons a l ih =>
    obtain ⟨n2, v2⟩ := a
    obtain ⟨hle, htail⟩ := List.pairwise_cons.1 h
    have hle2 : n ≤ n2 := hle _ List.mem_cons_self
    unfold checkUniquenessFrom
    rw [strict_cons]
    split_ifs with heq
    · simp [heq]
    have hlt : n < n2 := lt_of_le_of_ne hle2 heq
    rw [ih htail]
    constructor
    · intro hs
      refine ⟨fun p hp => ?_, hs⟩
      rcases mem_cons.1 hp with rfl | hp
      · exact hlt
      · exact hlt.trans ((strict_cons.1 hs).1 p hp)
    · intro hs; exact hs.2

theorem checkUniquenessOfSorted_iff (h : l.Pairwise fun a b => a.param ≤ b.param) :
    checkUniquenessOfSorted l = .ok () ↔ Strict l := by
  cases l with
  | nil => simp [checkUniquenessOfSorted, Strict]
  | cons a l => exact checkUniquenessFrom_iff h

theorem mergeSort_sorted (l : List (Argument ν α)) :
    (l.mergeSort leByParam).Pairwise fun a b => a.param ≤ b.param := by
  have hsort := List.pairwise_mergeSort leByParam_trans leByParam_total l
  simpa [leByParam] using hsort

theorem params_mergeSort (l : List (Argument ν α)) :
    (params (l.mergeSort leByParam)).Perm (params l) :=
  (List.mergeSort_perm l leByParam).map _

/-- Sorting finds whether the parameters differ. -/
theorem sortAndCheckUniqueness_ok_iff (l l' : List (Argument ν α)) :
    sortAndCheckUniqueness l = .ok l' ↔ l' = l.mergeSort leByParam ∧ (params l).Nodup := by
  have hcheck := checkUniquenessOfSorted_iff (mergeSort_sorted l)
  have hstrict : Strict (l.mergeSort leByParam) ↔ (params l).Nodup := by
    rw [← (params_mergeSort l).nodup_iff]
    exact ⟨fun h => h.nodup, fun h => strict_of_sorted (mergeSort_sorted l) h⟩
  unfold sortAndCheckUniqueness
  dsimp only
  cases hc : checkUniquenessOfSorted (l.mergeSort leByParam) with
  | error e =>
    rw [hc] at hcheck
    have hnot : ¬(params l).Nodup := fun h => absurd (hcheck.2 (hstrict.2 h)) (by simp)
    simp [Except.bind, hnot]
  | ok u =>
    have hyes : (params l).Nodup := hstrict.1 (hcheck.1 hc)
    simp [bind, Except.bind, pure, Except.pure, hyes, eq_comm]

theorem checkUniquenessOfMerged_iff {l1 l2 : List (Argument ν α)} (h1 : Strict l1)
    (h2 : Strict l2) : checkUniquenessOfMerged l1 l2 = .ok () ↔
      (params l1).Disjoint (params l2) := by
  fun_induction checkUniquenessOfMerged l1 l2 with
  | case1 l2 | case2 a l1 => simp
  | case3 a l1 b l2 heq => simp [heq]
  | case4 a l1 b l2 hne hlt ih =>
    obtain ⟨ha, h1⟩ := strict_cons.1 h1
    obtain ⟨hb, -⟩ := strict_cons.1 h2
    have hnot : a.param ∉ params (b :: l2) := by
      intro hmem
      rcases mem_cons.1 hmem with heq | hmem
      · exact hne heq
      · exact lt_irrefl _ (hlt.trans (hb _ hmem))
    rw [ih h1 h2, params_cons a l1, List.disjoint_cons_left]
    exact ⟨fun h => ⟨hnot, h⟩, fun h => h.2⟩
  | case5 a l1 b l2 hne hlt ih =>
    obtain ⟨ha, -⟩ := strict_cons.1 h1
    obtain ⟨hb, h2⟩ := strict_cons.1 h2
    have hgt : b.param < a.param := lt_of_le_of_ne (not_lt.1 hlt) (Ne.symm hne)
    have hnot : b.param ∉ params (a :: l1) := by
      intro hmem
      rcases mem_cons.1 hmem with heq | hmem
      · exact hne heq.symm
      · exact lt_irrefl _ (hgt.trans (ha _ hmem))
    rw [ih h1 h2, params_cons b l2, List.disjoint_cons_right]
    exact ⟨fun h => ⟨hnot, h⟩, fun h => h.2⟩

/-- The hidden arguments of a name that is created. -/
def bareArguments (hidden : List ν) : List (Argument ν (Global ν)) :=
  hidden.map fun param => ⟨param, ofParameterName param⟩

omit [LinearOrder ν] in
theorem params_bareArguments (hidden : List ν) : params (bareArguments hidden) = hidden := by
  simp [params, bareArguments, Function.comp_def]

variable {hidden : List ν}

theorem create_eq_ok : create head visible hidden = .ok t ↔ (params visible ++ hidden).Nodup ∧
      t = .create head (visible.mergeSort leByParam)
        ((bareArguments hidden).mergeSort leByParam) := by
  have hvisible := sortAndCheckUniqueness_ok_iff visible
  have hhidden := sortAndCheckUniqueness_ok_iff (bareArguments hidden)
  simp only [params_bareArguments] at hhidden
  have hdisjoint : (params (visible.mergeSort leByParam)).Disjoint
      (params ((bareArguments hidden).mergeSort leByParam)) ↔
      (params visible).Disjoint hidden := by
    have hv := params_mergeSort visible
    have hh := params_mergeSort (bareArguments hidden)
    rw [params_bareArguments] at hh
    unfold List.Disjoint
    simp only [hv.mem_iff, hh.mem_iff]
  rw [List.nodup_append']
  unfold create
  dsimp only
  have hbare : (hidden.map fun param => Argument.mk param (ofParameterName param)) =
      bareArguments hidden := rfl
  rw [hbare]
  cases h1 : sortAndCheckUniqueness visible with
  | error e =>
    have hnot : ¬(params visible).Nodup := fun h => by
      have hok := (hvisible _).2 ⟨rfl, h⟩
      simp [h1] at hok
    simp [bind, Except.bind, hnot]
  | ok l1 =>
    obtain ⟨rfl, hn1⟩ := (hvisible _).1 h1
    cases h2 : sortAndCheckUniqueness (bareArguments hidden) with
    | error e =>
      have hnot : ¬hidden.Nodup := fun h => by
        have hok := (hhidden _).2 ⟨rfl, h⟩
        simp [h2] at hok
      simp [bind, Except.bind, hnot]
    | ok l2 =>
      obtain ⟨rfl, hn2⟩ := (hhidden _).1 h2
      have hmerged := checkUniquenessOfMerged_iff
        (strict_of_sorted (mergeSort_sorted visible) ((params_mergeSort visible).nodup_iff.2 hn1))
        (strict_of_sorted (mergeSort_sorted (bareArguments hidden))
          ((params_mergeSort _).nodup_iff.2 (by rwa [params_bareArguments])))
      rw [hdisjoint] at hmerged
      cases h3 : checkUniquenessOfMerged (visible.mergeSort leByParam)
          ((bareArguments hidden).mergeSort leByParam) with
      | error e =>
        rw [h3] at hmerged
        have hnot : ¬(params visible).Disjoint hidden := fun h => by simpa using hmerged.2 h
        simp [bind, Except.bind, h3, hnot]
      | ok u =>
        have hyes := hmerged.1 h3
        simp [bind, Except.bind, pure, Except.pure, h3, hn1, hn2, hyes, eq_comm]

/-- A name that is created is well-formed. -/
theorem create_wellFormed (h : create head visible hidden = .ok t)
    (hvalues : ∀ a ∈ visible, WellFormed a.value) : WellFormed t := by
  obtain ⟨hnodup, rfl⟩ := create_eq_ok.1 h
  obtain ⟨hv, hh, hdisjoint⟩ := List.nodup_append'.1 hnodup
  have hpv := params_mergeSort visible
  have hph := params_mergeSort (bareArguments hidden)
  rw [params_bareArguments] at hph
  refine .create (strict_of_sorted (mergeSort_sorted _) (hpv.nodup_iff.2 hv))
    (strict_of_sorted (mergeSort_sorted _) (hph.nodup_iff.2 hh)) ?_ ?_ ?_
  · intro p hp hq; exact hdisjoint (hpv.mem_iff.1 hp) (hph.mem_iff.1 hq)
  · intro a ha
    obtain ⟨p, -, rfl⟩ := List.mem_map.1 (List.mem_mergeSort.1 ha)
    rfl
  · intro a ha; exact hvalues a (List.mem_mergeSort.1 ha)

/-! ## §7 The action -/

/-- Substitution is an action on the well-formed names: it keeps them well formed, reports
faithfully that nothing has changed, composes, and completes. -/
theorem subst_action (ht : WellFormed t) (hs1 : ∀ p u, s1 p = some u → WellFormed u) :
    WellFormed (subst t s1).1 ∧
    ((subst t s1).2 = .didNotChange → (subst t s1).1 = t ∧ (subst0 s1 t false).1 = t) ∧
    (subst (subst t s1).1 s2).1 = (subst t (compose s1 s2)).1 ∧
    ((∀ p, OccursHidden p t → ∃ u, s1 p = some u ∧ isComplete u) →
      (∀ p u, OccursBare p t → s1 p = some u → isComplete u) → isComplete (subst t s1).1) := by
  refine ⟨?_, ?_, ?_, ?_⟩
  · rw [subst_image]; exact image_wellFormed ht hs1
  · intro hflag
    have huntouched : touched s1 t = false := by
      unfold subst at hflag
      rw [subst0_flag] at hflag
      cases htouched : touched s1 t with
      | true => simp [htouched] at hflag
      | false => rfl
    rw [subst_image]
    exact ⟨image_of_untouched huntouched, image_of_untouched huntouched⟩
  · rw [subst_image, subst_image, subst_image]; exact image_compose ht
  intro hhidden hbare
  rw [subst_image]
  exact image_isComplete ht hhidden hbare

/-- `M[P:Q]{X}`, where `X` becomes `N{Y}`, and then `Y` becomes `Q`. -/
theorem subst_action_revealed :
    let t : Global String := .create "M" [⟨"P", ofParameterName "Q"⟩] [⟨"X", ofParameterName "X"⟩]
    let s1 : Subst String := fun p =>
      if p = "X" then some (.create "N" [] [⟨"Y", ofParameterName "Y"⟩]) else none
    let s2 : Subst String := fun p => if p = "Y" then some (ofParameterName "Q") else none
    WellFormed (subst t s1).1 ∧ (subst (subst t s1).1 s2).1 = (subst t (compose s1 s2)).1 ∧
      ((subst t s1).2 = .didNotChange → (subst t s1).1 = t) := by
  have hbare : ∀ p : String, WellFormed (ofParameterName p) := fun p =>
    .create List.Pairwise.nil List.Pairwise.nil (by simp) (by simp) (by simp)
  have hn : WellFormed (.create "N" [] [⟨"Y", ofParameterName "Y"⟩] : Global String) :=
    .create List.Pairwise.nil (List.pairwise_singleton _ _) (by simp) (by simp) (by simp)
  have ht : WellFormed (.create "M" [⟨"P", ofParameterName "Q"⟩] [⟨"X", ofParameterName "X"⟩] :
      Global String) :=
    .create (List.pairwise_singleton _ _) (List.pairwise_singleton _ _) (by simp) (by simp)
      (by simpa using hbare "Q")
  intro t s1 s2
  have hs1 : ∀ p u, s1 p = some u → WellFormed u := by
    intro p u hu
    by_cases hp : p = "X"
    · simp only [s1, if_pos hp, Option.some.injEq] at hu; exact hu ▸ hn
    · simp [s1, hp] at hu
  obtain ⟨hwf, hsame, hcompose, -⟩ := subst_action ht hs1
  exact ⟨hwf, hcompose, fun h => (hsame h).1⟩

end Oxcaml.Typing.GlobalModule
