/-
Oxcaml.Typing.GlobalPrecisionTheorems — the meet of globals with a precision is the
intersection of what they denote.

`Refines h g`: `h` has the visible structure of `g`, and at every nesting level no hidden
argument that `g` does not have. `meetApproximate` is the greatest lower bound of two
globals for it (§2), and fails when they have no lower bound. What is denoted and the
precision together determine a global up to `equal` (§4), which gives the laws of the meet.
-/
import Oxcaml.Lib.Outcome
import Oxcaml.Typing.GlobalModuleTheorems
import Mathlib.Data.Set.Basic

set_option linter.all false

namespace Oxcaml.Typing.GlobalModule.WithPrecision

open List (mem_cons)

variable {ν : Type}

/-! ## §1 Refinement -/

mutual

/-- The same visible structure, with hidden arguments among those of the second. -/
def Refines : Global ν → Global ν → Prop
  | .create head1 visible1 hidden1, .create head2 visible2 hidden2 =>
    head1 = head2 ∧ RefinesArgs visible1 visible2 ∧ hidden1 ⊆ hidden2

def RefinesArgs : List (Argument ν (Global ν)) → List (Argument ν (Global ν)) → Prop
  | [], [] => True
  | ⟨param1, value1⟩ :: l1, ⟨param2, value2⟩ :: l2 =>
    param1 = param2 ∧ Refines value1 value2 ∧ RefinesArgs l1 l2
  | _, _ => False

end

/-- The globals that a global with a precision denotes. -/
def denote [LinearOrder ν] : T ν → Set (Global ν)
  | (glob, .exact) => {glob}
  | (glob, .approximate) => {h | WellFormed h ∧ Refines h glob}

variable {l : List (Argument ν (Global ν))}

theorem refinesArgs_refl (h : ∀ a ∈ l, Refines a.value a.value) : RefinesArgs l l := by
  induction l with
  | nil => trivial
  | cons a l ih => exact ⟨rfl, h a (by simp), ih fun b hb => h b (by simp [hb])⟩

theorem refines_refl (t : Global ν) : Refines t t := by
  induction t using Global.ind with
  | h head visible hidden hvisible _ =>
    exact ⟨rfl, refinesArgs_refl hvisible, List.Subset.refl hidden⟩

variable [LinearOrder ν]

variable {l1 l2 : List (Argument ν (Global ν))}

theorem Strict.eq_of_subset (h1 : Strict l1)
    (h2 : Strict l2) (h12 : l1 ⊆ l2) (h21 : l2 ⊆ l1) : l1 = l2 := by
  have hnodup : ∀ {l : List (Argument ν (Global ν))}, Strict l → l.Nodup :=
    fun h => h.nodup.of_map
  exact h1.eq_of_perm h2 ((List.perm_ext_iff_of_nodup (hnodup h1) (hnodup h2)).2
    fun a => ⟨fun ha => h12 ha, fun ha => h21 ha⟩)

theorem refinesArgs_antisymm
    (hvalues : ∀ a ∈ l1, ∀ t, Refines a.value t → Refines t a.value → WellFormed t → a.value = t)
    (hwf : ∀ a ∈ l2, WellFormed a.value) (h12 : RefinesArgs l1 l2) (h21 : RefinesArgs l2 l1) :
    l1 = l2 := by
  induction l1 generalizing l2 with
  | nil =>
    cases l2 with
    | nil => rfl
    | cons b l2 => exact absurd h12 id
  | cons a l1 ih =>
    cases l2 with
    | nil => exact absurd h12 id
    | cons b l2 =>
      obtain ⟨p, x⟩ := a
      obtain ⟨q, y⟩ := b
      obtain ⟨rfl, hxy, hl12⟩ := h12
      obtain ⟨-, hyx, hl21⟩ := h21
      have hvalue : x = y := hvalues ⟨p, x⟩ (by simp) y hxy hyx (hwf ⟨p, y⟩ (by simp))
      rw [hvalue, ih (fun a ha => hvalues a (by simp [ha])) (fun b hb => hwf b (by simp [hb]))
        hl12 hl21]

variable {t1 t2 : Global ν}

theorem refines_antisymm (h1 : WellFormed t1) (h2 : WellFormed t2)
    (h12 : Refines t1 t2) (h21 : Refines t2 t1) : t1 = t2 := by
  induction h1 generalizing t2 with
  | create hv hh _ _ hwf ih =>
    cases h2 with
    | create hv2 hh2 _ _ hwf2 =>
      obtain ⟨rfl, hargs12, hsub12⟩ := h12
      obtain ⟨-, hargs21, hsub21⟩ := h21
      rw [refinesArgs_antisymm (fun a ha t hat hta ht => ih a ha ht hat hta) hwf2 hargs12 hargs21,
        Strict.eq_of_subset hh hh2 hsub12 hsub21]

/-! ## §2 The meet of two approximate globals -/

theorem meetArgs_bare (param : ν) :
    meetArgs ⟨param, ofParameterName param⟩ ⟨param, ofParameterName param⟩ =
      .ok ⟨param, ofParameterName param⟩ := by
  simp [meetArgs, meetAtom, ofParameterName, meetApproximate, meetVisible, meetHidden,
    unsafeCreateUnchecked]
  rfl

theorem not_mem_of_lt {a : Argument ν (Global ν)} {p : ν}
    (hl : Strict l) (hhead : ∀ q ∈ (params l).head?, p < q) (ha : a.param = p) : a ∉ l := by
  intro hmem
  cases l with
  | nil => simp at hmem
  | cons b l =>
    have hb : p < b.param := hhead _ rfl
    rcases mem_cons.1 hmem with rfl | hmem
    · exact absurd (ha ▸ hb) (lt_irrefl _)
    · exact lt_asymm hb (ha ▸ (strict_cons.1 hl).1 _ (mem_params hmem))

/-- The meet of hidden arguments, which are bare parameters, is a filter. -/
theorem meetHidden_eq (h1 : Strict l1) (h2 : Strict l2)
    (hbare1 : ∀ a ∈ l1, a.value = ofParameterName a.param)
    (hbare2 : ∀ a ∈ l2, a.value = ofParameterName a.param)
    (accRev : List (Argument ν (Global ν))) :
    ∃ l : List (Argument ν (Global ν)), meetHidden accRev l1 l2 = .ok (l.reverse ++ accRev) ∧
      l.Sublist l1 ∧ ∀ a, a ∈ l ↔ a ∈ l1 ∧ a ∈ l2 := by
  induction l1 generalizing l2 accRev with
  | nil =>
    refine ⟨[], ?_, .refl _, by simp⟩
    clear h2 hbare2
    induction l2 with
    | nil => simp [meetHidden, pure, Except.pure]
    | cons b l2 ih => rwa [meetHidden]
  | cons a l1 ih1 =>
    have h1' := (strict_cons.1 h1).2
    have hbare1' : ∀ a ∈ l1,
      a.value = ofParameterName a.param := fun a ha => hbare1 a (by simp [ha])
    induction l2 generalizing accRev with
    | nil =>
      obtain ⟨l, hl, hsub, hmem⟩ := ih1 h1' h2 hbare1' hbare2 accRev
      exact ⟨l, by rwa [meetHidden], hsub.cons _, fun x => by simp [hmem]⟩
    | cons b l2 ih2 =>
      have h2' := (strict_cons.1 h2).2
      have hbare2' : ∀ a ∈ l2, a.value = ofParameterName a.param :=
        fun a ha => hbare2 a (by simp [ha])
      cases hcompare : compare a.param b.param with
      | lt =>
        have hlt := compare_lt_iff_lt.1 hcompare
        have hnot : a ∉ b :: l2 := not_mem_of_lt h2 (fun q hq => by cases hq; exact hlt) rfl
        obtain ⟨l, hl, hsub, hmem⟩ := ih1 h1' h2 hbare1' hbare2 accRev
        refine ⟨l, by rw [meetHidden]; simpa only [hcompare] using hl, hsub.cons _, fun x => ?_⟩
        rw [hmem]
        constructor
        · rintro ⟨hx1, hx2⟩; exact ⟨List.mem_cons_of_mem _ hx1, hx2⟩
        rintro ⟨hx1, hx2⟩
        rcases mem_cons.1 hx1 with rfl | hx1
        · exact absurd hx2 hnot
        · exact ⟨hx1, hx2⟩
      | gt =>
        have hlt := compare_gt_iff_gt.1 hcompare
        have hnot : b ∉ a :: l1 := not_mem_of_lt h1 (fun q hq => by cases hq; exact hlt) rfl
        obtain ⟨l, hl, hsub, hmem⟩ := ih2 h2' hbare2' accRev
        refine ⟨l, by rw [meetHidden]; simpa only [hcompare] using hl, hsub, fun x => ?_⟩
        rw [hmem]
        constructor
        · rintro ⟨hx1, hx2⟩; exact ⟨hx1, List.mem_cons_of_mem _ hx2⟩
        rintro ⟨hx1, hx2⟩
        rcases mem_cons.1 hx2 with rfl | hx2
        · exact absurd hx1 hnot
        · exact ⟨hx1, hx2⟩
      | eq =>
        have hparam := compare_eq_iff_eq.1 hcompare
        have hab : a = b := by
          have ha := hbare1 a (by simp)
          have hb := hbare2 b (by simp)
          obtain ⟨p, x⟩ := a
          obtain ⟨q, y⟩ := b
          dsimp only at hparam ha hb
          rw [ha, hb, hparam]
        subst hab
        have harg : meetArgs a a = .ok a := by
          have hmeet := meetArgs_bare a.param
          rwa [← hbare1 a (by simp)] at hmeet
        obtain ⟨l, hl, hsub, hmem⟩ := ih1 h1' h2' hbare1' hbare2' (a :: accRev)
        refine ⟨a :: l, ?_, hsub.cons_cons _, fun x => ?_⟩
        · rw [meetHidden, harg]; simpa [bind, Except.bind] using hl
        rw [mem_cons, hmem, mem_cons, mem_cons]
        constructor
        · rintro (hx | ⟨hx1, hx2⟩)
          · exact ⟨.inl hx, .inl hx⟩
          · exact ⟨.inr hx1, .inr hx2⟩
        rintro ⟨hx | hx1, hx2⟩
        · exact .inl hx
        · exact hx2.imp id fun hx2 => ⟨hx1, hx2⟩

/-- A meet that succeeds is the greatest lower bound, and one that fails has no lower bound. -/
def IsMeet (glob1 glob2 : Global ν) : Except Exn (Global ν) → Prop
  | .ok glob => WellFormed glob ∧ ∀ h, Refines h glob ↔ Refines h glob1 ∧ Refines h glob2
  | .error _ => ∀ h, ¬(Refines h glob1 ∧ Refines h glob2)

theorem meetArgs_eq (param : ν) (value1 value2 : Global ν) :
    meetArgs ⟨param, value1⟩ ⟨param, value2⟩ =
      (meetApproximate value1 value2).map fun value => ⟨param, value⟩ := by
  rw [meetArgs]
  cases meetApproximate value1 value2 <;>
    simp [meetAtom, bind, Except.bind, pure, Except.pure, Except.map]

/-- The same for lists of visible arguments. -/
def IsMeetArgs (accRev l1 l2 : List (Argument ν (Global ν))) :
    Except Exn (List (Argument ν (Global ν))) → Prop
  | .ok resultRev => ∃ l : List (Argument ν (Global ν)), resultRev = l.reverse ++ accRev ∧
      params l = params l1 ∧ (∀ a ∈ l, WellFormed a.value) ∧
      ∀ hs, RefinesArgs hs l ↔ RefinesArgs hs l1 ∧ RefinesArgs hs l2
  | .error _ => ∀ hs, ¬(RefinesArgs hs l1 ∧ RefinesArgs hs l2)

theorem isMeetArgs_meetVisible
    (hvalues : ∀ a ∈ l1, ∀ t, WellFormed t → IsMeet a.value t (meetApproximate a.value t))
    (hwf : ∀ b ∈ l2, WellFormed b.value) (accRev : List (Argument ν (Global ν))) :
    IsMeetArgs accRev l1 l2 (meetVisible accRev l1 l2) := by
  induction l1 generalizing l2 accRev with
  | nil =>
    cases l2 with
    | nil => rw [meetVisible]; exact ⟨[], rfl, rfl, by simp, fun hs => (and_self_iff).symm⟩
    | cons b l2 =>
      rw [meetVisible]
      rintro (_ | ⟨h, hs⟩) ⟨h1, h2⟩
      · exact h2
      · exact h1
  | cons a l1 ih =>
    cases l2 with
    | nil =>
      rw [meetVisible]
      rintro (_ | ⟨h, hs⟩) ⟨h1, h2⟩
      · exact h1
      · exact h2
    | cons b l2 =>
      obtain ⟨p, x⟩ := a
      obtain ⟨q, y⟩ := b
      have hne : p ≠ q → ∀ hs,
        ¬(RefinesArgs hs (⟨p, x⟩ :: l1) ∧ RefinesArgs hs (⟨q, y⟩ :: l2)) := by
        rintro hpq (_ | ⟨h, hs⟩) ⟨h1, h2⟩
        · exact h1
        · exact hpq (h1.1.symm.trans h2.1)
      rw [meetVisible]
      cases hcompare : compare p q with
      | lt => exact hne (compare_lt_iff_lt.1 hcompare).ne
      | gt => exact hne (compare_gt_iff_gt.1 hcompare).ne'
      | eq =>
        have hpq := compare_eq_iff_eq.1 hcompare
        subst hpq
        have hvalue := hvalues ⟨p, x⟩ (by simp) y (hwf ⟨p, y⟩ (by simp))
        rw [meetArgs_eq]
        cases hmeet : meetApproximate x y with
        | error e =>
          rw [hmeet] at hvalue
          rintro (_ | ⟨h, hs⟩) ⟨h1, h2⟩
          · exact h1
          · exact hvalue h.value ⟨h1.2.1, h2.2.1⟩
        | ok value =>
          rw [hmeet] at hvalue
          have hrest := @ih l2 (fun a ha => hvalues a (by simp [ha]))
            (fun b hb => hwf b (by simp [hb])) (⟨p, value⟩ :: accRev)
          simp only [Except.map, bind, Except.bind]
          cases hvisible : meetVisible (⟨p, value⟩ :: accRev) l1 l2 with
          | error e =>
            rw [hvisible] at hrest
            rintro (_ | ⟨h, hs⟩) ⟨h1, h2⟩
            · exact h1
            · exact hrest hs ⟨h1.2.2, h2.2.2⟩
          | ok resultRev =>
            rw [hvisible] at hrest
            obtain ⟨l, rfl, hparams, hl, hrefines⟩ := hrest
            refine ⟨⟨p, value⟩ :: l, by simp, by simp [hparams], ?_, ?_⟩
            · intro a ha
              rcases mem_cons.1 ha with rfl | ha
              · exact hvalue.1
              · exact hl a ha
            rintro (_ | ⟨⟨r, z⟩, hs⟩)
            · simp [RefinesArgs]
            · simp only [RefinesArgs, hrefines, hvalue.2]; tauto

theorem isMeet_meetApproximate {glob1 glob2 : Global ν} (h1 : WellFormed glob1)
    (h2 : WellFormed glob2) : IsMeet glob1 glob2 (meetApproximate glob1 glob2) := by
  induction h1 generalizing glob2 with
  | @create head1 visible1 hidden1 hstrict1 hhidden1 hdisjoint1 hbare1 hwf1 ih =>
    cases h2 with
    | @create head2 visible2 hidden2 hstrict2 hhidden2 hdisjoint2 hbare2 hwf2 =>
      have hvisible := isMeetArgs_meetVisible (fun a ha t ht => ih a ha ht) hwf2 []
      obtain ⟨hidden, hhidden, hsub, hmem⟩ := meetHidden_eq hhidden1 hhidden2 hbare1 hbare2 []
      rw [meetApproximate, hhidden]
      cases hmeet : meetVisible [] visible1 visible2 with
      | error e =>
        rw [hmeet] at hvisible
        rintro ⟨head, visible, hidden⟩ ⟨hr1, hr2⟩
        exact hvisible visible ⟨hr1.2.1, hr2.2.1⟩
      | ok visibleRev =>
        rw [hmeet] at hvisible
        obtain ⟨visible, rfl, hparams, hwf, hrefines⟩ := hvisible
        by_cases hhead : head1 = head2
        · subst hhead
          simp only [meetAtom, bind, Except.bind, List.append_nil, List.reverse_reverse,
            unsafeCreateUnchecked]
          constructor
          · refine .create ?_ ?_ ?_ (fun a ha => hbare1 a (hsub.subset ha)) hwf
            · rw [Strict, hparams]; exact hstrict1
            · exact List.Pairwise.sublist (hsub.map _) hhidden1
            · rw [hparams]; exact fun p hp hh => hdisjoint1 hp ((hsub.map _).subset hh)
          rintro ⟨head, visible', hidden'⟩
          simp only [Refines, hrefines, List.subset_def, hmem]
          constructor
          · rintro ⟨hh, ⟨hv1, hv2⟩, hall⟩
            exact ⟨⟨hh, hv1, fun ha => (hall ha).1⟩, hh, hv2, fun ha => (hall ha).2⟩
          · rintro ⟨⟨-, hv1, hs1⟩, hh, hv2, hs2⟩
            exact ⟨hh, ⟨hv1, hv2⟩, fun ha => ⟨hs1 ha, hs2 ha⟩⟩
        simp only [meetAtom, hhead, false, bind]
        rintro ⟨head, visible', hidden'⟩ ⟨hr1, hr2⟩
        exact hhead (hr1.1.symm.trans hr2.1)

/-! ## §3 The meet of globals with a precision -/

theorem equalArgs_iff (h : ∀ a ∈ l1, ∀ t, GlobalModule.equal a.value t = true ↔ a.value = t) :
    equalArgs l1 l2 = true ↔ l1 = l2 := by
  induction l1 generalizing l2 with
  | nil => cases l2 <;> simp [equalArgs]
  | cons a l1 ih =>
    cases l2 with
    | nil => simp [equalArgs]
    | cons b l2 =>
      obtain ⟨p, x⟩ := a
      obtain ⟨q, y⟩ := b
      have hvalue := h ⟨p, x⟩ (by simp) y
      have hrest := @ih l2 fun a ha => h a (by simp [ha])
      simp [equalArgs, hvalue, hrest]

theorem equal_iff : GlobalModule.equal t1 t2 = true ↔ t1 = t2 := by
  induction t1 using Global.ind generalizing t2 with
  | h head visible hidden hvisible hhidden =>
    cases t2 with
    | create head2 visible2 hidden2 =>
      rw [GlobalModule.equal, Bool.and_eq_true, Bool.and_eq_true,
        equalArgs_iff fun a ha t => hvisible a ha, equalArgs_iff fun a ha t => hhidden a ha]
      simp [and_assoc]

variable {t t1 t2 t3 : T ν}

/-- Well-formed, and without regard to the precision. -/
def WellFormedT (t : T ν) : Prop := WellFormed t.1

/-- Exact as soon as one of the two is. -/
def Precision.meet : Precision → Precision → Precision
  | .approximate, .approximate => .approximate
  | _, _ => .exact

theorem mem_denote_self (h : WellFormedT t) : t.1 ∈ denote t := by
  obtain ⟨glob, precision⟩ := t
  cases precision with
  | exact => rfl
  | approximate => exact ⟨h, refines_refl glob⟩

/-- What an outcome of the meet is to the sets that are denoted. -/
def Denotes (set : Set (Global ν)) (precision : Precision) : Except Exn (T ν) → Prop
  | .ok t => WellFormedT t ∧ denote t = set ∧ t.2 = precision
  | .error _ => set = ∅

theorem denotes_meetExact {exact approx : Global ν} (h1 : WellFormed exact)
    (h2 : WellFormed approx) :
    Denotes (denote (exact, .exact) ∩ denote (approx, .approximate)) .exact
      (meetExact exact approx) := by
  have hmeet := isMeet_meetApproximate h1 h2
  have hmem : ∀ h, h ∈ denote (exact, .exact) ∩ denote (approx, .approximate) ↔
      h = exact ∧ Refines exact approx := by
    intro h
    constructor
    · rintro ⟨rfl, -, hr⟩; exact ⟨rfl, hr⟩
    · rintro ⟨rfl, hr⟩; exact ⟨rfl, h1, hr⟩
  rw [meetExact]
  cases heq : meetApproximate exact approx with
  | error e =>
    rw [heq] at hmeet
    refine Set.eq_empty_of_forall_notMem fun h hh => ?_
    exact hmeet exact ⟨refines_refl exact, ((hmem h).1 hh).2⟩
  | ok exact' =>
    rw [heq] at hmeet
    simp only [bind, Except.bind]
    by_cases hsame : exact = exact'
    · subst hsame
      have hr := ((hmeet.2 exact).1 (refines_refl exact)).2
      rw [if_pos (equal_iff.2 rfl)]
      refine ⟨h1, Set.ext fun h => ?_, rfl⟩
      rw [hmem]
      exact ⟨fun hh => ⟨hh, hr⟩, And.left⟩
    rw [if_neg fun heq => hsame (equal_iff.1 heq)]
    refine Set.eq_empty_of_forall_notMem fun h hh => hsame ?_
    have hr := ((hmem h).1 hh).2
    exact refines_antisymm h1 hmeet.1 ((hmeet.2 exact).2 ⟨refines_refl exact, hr⟩)
      ((hmeet.2 exact').1 (refines_refl exact')).1

theorem denotes_meet (h1 : WellFormedT t1) (h2 : WellFormedT t2) :
    Denotes (denote t1 ∩ denote t2) (Precision.meet t1.2 t2.2) (meet t1 t2) := by
  obtain ⟨glob1, precision1⟩ := t1
  obtain ⟨glob2, precision2⟩ := t2
  cases precision1 with
  | approximate =>
    cases precision2 with
    | approximate =>
      have hmeet := isMeet_meetApproximate h1 h2
      rw [meet]
      cases heq : meetApproximate glob1 glob2 with
      | error e =>
        rw [heq] at hmeet
        exact Set.eq_empty_of_forall_notMem fun h hh => hmeet h ⟨hh.1.2, hh.2.2⟩
      | ok glob =>
        rw [heq] at hmeet
        refine ⟨hmeet.1, Set.ext fun h => ?_, rfl⟩
        change WellFormed h ∧ Refines h glob ↔
          (WellFormed h ∧ Refines h glob1) ∧ (WellFormed h ∧ Refines h glob2)
        rw [hmeet.2]
        tauto
    | exact => rw [Set.inter_comm]; exact denotes_meetExact h2 h1
  | exact =>
    cases precision2 with
    | approximate => exact denotes_meetExact h1 h2
    | exact =>
      rw [meet]
      by_cases hsame : glob1 = glob2
      · subst hsame
        rw [if_pos (equal_iff.2 rfl), Set.inter_self]
        exact ⟨h1, rfl, rfl⟩
      rw [if_neg fun heq => hsame (equal_iff.1 heq)]
      refine Set.eq_empty_of_forall_notMem fun h hh => hsame ?_
      exact hh.1.symm.trans hh.2

/-! ## §4 The laws -/

/-- Equal up to `equal`, or both inconsistent. -/
def Same : Except Exn (T ν) → Except Exn (T ν) → Prop
  | .ok t1, .ok t2 => equal t1 t2 = true
  | .error _, .error _ => True
  | _, _ => False

theorem denote_injective (h1 : WellFormedT t1) (h2 : WellFormedT t2) (hprecision : t1.2 = t2.2)
    (h : denote t1 = denote t2) : equal t1 t2 = true := by
  obtain ⟨glob1, precision⟩ := t1
  obtain ⟨glob2, precision2⟩ := t2
  subst hprecision
  have hself1 := mem_denote_self h1
  have hself2 := mem_denote_self h2
  rw [h] at hself1
  rw [← h] at hself2
  have heq : glob1 = glob2 := by
    cases precision with
    | exact => exact hself1
    | approximate => exact refines_antisymm h1 h2 hself1.2 hself2.2
  simp [equal, equal_iff.2 heq]

variable {precision : Precision} {set : Set (Global ν)}

theorem Denotes.ne_empty (h : Denotes set precision (.ok t)) : set ≠ ∅ := by
  obtain ⟨hwf, hdenote, -⟩ := h
  rw [← hdenote]
  exact Set.nonempty_iff_ne_empty.1 ⟨t.1, mem_denote_self hwf⟩

/-- The set and the precision determine the outcome. -/
theorem Denotes.same {r1 r2 : Except Exn (T ν)}
    (h1 : Denotes set precision r1) (h2 : Denotes set precision r2) : Same r1 r2 := by
  cases r1 with
  | error e1 =>
    cases r2 with
    | error e2 => trivial
    | ok t2 => exact absurd h1 h2.ne_empty
  | ok t1 =>
    cases r2 with
    | error e2 => exact absurd h2 h1.ne_empty
    | ok t2 =>
      obtain ⟨hwf1, hset1, hp1⟩ := h1
      obtain ⟨hwf2, hset2, hp2⟩ := h2
      exact denote_injective hwf1 hwf2 (hp1.trans hp2.symm) (hset1.trans hset2.symm)

/-- The meet of an outcome with a third global. -/
theorem Denotes.bind {r : Except Exn (T ν)}
    (h : Denotes set precision r) {f : T ν → Except Exn (T ν)} {set' : Set (Global ν)}
    {precision' : Precision}
    (hf : ∀ t, WellFormedT t → denote t = set → t.2 = precision → Denotes set' precision' (f t))
    (hempty : set = ∅ → set' = ∅) : Denotes set' precision' (r >>= f) := by
  cases r with
  | error e => exact hempty h
  | ok t => exact hf t h.1 h.2.1 h.2.2

theorem Precision.meet_comm (p q : Precision) : Precision.meet p q = Precision.meet q p := by
  cases p <;> cases q <;> rfl

theorem Precision.meet_assoc (p q r : Precision) :
    Precision.meet (Precision.meet p q) r = Precision.meet p (Precision.meet q r) := by
  cases p <;> cases q <;> cases r <;> rfl

theorem Precision.meet_self (p : Precision) : Precision.meet p p = p := by cases p <;> rfl

/-- The meet is the intersection, and is inconsistent exactly when that is empty; so it is
commutative, associative and idempotent up to `equal`. -/
theorem meet_intersection (h1 : WellFormedT t1) (h2 : WellFormedT t2) (h3 : WellFormedT t3) :
    (meet t1 t2 = .error .inconsistent ↔ Disjoint (denote t1) (denote t2)) ∧
    (∀ t, meet t1 t2 = .ok t → WellFormedT t ∧ denote t = denote t1 ∩ denote t2) ∧
    Same (meet t1 t2) (meet t2 t1) ∧
    Same (do meet (← meet t1 t2) t3) (do meet t1 (← meet t2 t3)) ∧
    Same (meet t1 t1) (.ok t1) := by
  have h12 := denotes_meet h1 h2
  refine ⟨?_, ?_, ?_, ?_, ?_⟩
  · rw [Set.disjoint_iff_inter_eq_empty]
    cases heq : meet t1 t2 with
    | error e =>
      rw [heq] at h12
      cases e
      exact ⟨fun _ => h12, fun _ => rfl⟩
    | ok t => rw [heq] at h12; exact ⟨fun h => (by cases h), fun h => absurd h h12.ne_empty⟩
  · intro t heq
    rw [heq] at h12
    exact ⟨h12.1, h12.2.1⟩
  · have h21 := denotes_meet h2 h1
    rw [Set.inter_comm, Precision.meet_comm] at h21
    exact h12.same h21
  · have hleft : Denotes (denote t1 ∩ denote t2 ∩ denote t3)
        (Precision.meet (Precision.meet t1.2 t2.2) t3.2) (do meet (← meet t1 t2) t3) := by
      refine h12.bind (fun t ht hset hp => ?_) fun hempty => by rw [hempty, Set.empty_inter]
      rw [← hset, ← hp]
      exact denotes_meet ht h3
    have hright : Denotes (denote t1 ∩ denote t2 ∩ denote t3)
        (Precision.meet (Precision.meet t1.2 t2.2) t3.2) (do meet t1 (← meet t2 t3)) := by
      rw [Set.inter_assoc, Precision.meet_assoc]
      refine (denotes_meet h2 h3).bind (fun t ht hset hp => ?_)
        fun hempty => by rw [hempty, Set.inter_empty]
      rw [← hset, ← hp]
      exact denotes_meet h1 ht
    exact hleft.same hright
  have h11 := denotes_meet h1 h1
  rw [Set.inter_self, Precision.meet_self] at h11
  exact h11.same ⟨h1, rfl, rfl⟩

/-- An exact name with one hidden argument, and two approximations of it. -/
theorem meet_intersection_hidden :
    let exact : T ℕ := (.create 0 [] [⟨1, ofParameterName 1⟩], .exact)
    let loose : T ℕ := (.create 0 [] [⟨1, ofParameterName 1⟩, ⟨2, ofParameterName 2⟩], .approximate)
    let bare : T ℕ := (ofParameterName 0, .approximate)
    ¬Disjoint (denote exact) (denote loose) ∧ Disjoint (denote exact) (denote bare) := by
  intro exact loose bare
  have hexact : WellFormedT exact := .create .nil (by simp [Strict]) (by simp) (by simp) (by simp)
  have hloose : WellFormedT loose := .create .nil (by simp [Strict]) (by simp) (by simp) (by simp)
  have hbare : WellFormedT bare := .create .nil .nil (by simp) (by simp) (by simp)
  constructor
  · rw [← (meet_intersection hexact hloose hbare).1]
    simp [meet, meetExact, exact, loose, meetApproximate, meetVisible, meetHidden, meetArgs_bare,
      meetAtom, unsafeCreateUnchecked, equal_iff, bind, Except.bind, pure, Except.pure]
  rw [← (meet_intersection hexact hbare hloose).1]
  simp [meet, meetExact, exact, bare, meetApproximate, meetVisible, meetHidden, ofParameterName,
    meetAtom, unsafeCreateUnchecked, equal_iff, bind, Except.bind, pure, Except.pure, throw,
    throwThe, MonadExceptOf.throw]

end Oxcaml.Typing.GlobalModule.WithPrecision
