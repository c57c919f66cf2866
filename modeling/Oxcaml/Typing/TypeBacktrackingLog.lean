/-
Oxcaml.Typing.TypeBacktrackingLog — what `backtrack` and `undo_compress` leave.

`Rewound` says what `backtrack` leaves when the log from a snapshot on holds the
entries `es`, and `Struck` says it of `undo_compress`. Both work on cells from
the snapshot's on, and a log is upward, so nothing older is touched. What a
snapshot promises of the store, `Restored`, survives changes of younger nodes
and the undoing of compressions.
-/
import Oxcaml.Typing.TypeBacktrackingEffects

set_option linter.all false

namespace Oxcaml.Typing.Types

open Function (update update_of_ne update_self)

open Oxcaml.Lib

variable {J P A : Type} {s s' : State J P A} {σ σ' : Store J P A} {saved : State J P A}

/-! ## Restored stores -/

theorem Restored.agree (h : Restored saved σ) (ha : Agree saved σ σ') : Restored saved σ' where
  level := fun z hz => (ha.level z hz).trans (h.level z hz)
  scope := fun z hz => (ha.scope z hz).trans (h.scope z hz)
  ends := by
    have hnext : σ'.next = σ.next := by
      funext z
      simp only [Store.next, ha.desc, ha.kind]
    rw [hnext]
    exact h.ends
  desc := fun z hz hstop => (congrFun ha.desc z).trans (h.desc z hz hstop)
  kind := ha.kind.trans h.kind
  ext := ha.ext.trans h.ext
  commu := ha.commu.trans h.commu
  univar := fun r hr => (ha.univar r hr).trans (h.univar r hr)
  name := fun r hr => (ha.name r hr).trans (h.name r hr)

/-- A younger node without a pointer is overwritten. -/
theorem Restored.setDesc (h : Restored saved σ)
    (hsaved : ∀ z, (saved.store.desc z).Known saved.newId) {ty : TypeExpr}
    (hty : saved.newId < ty) (hstop : σ.next ty = none) (D : Desc J P) :
    Restored saved (σ.setDesc ty D) where
  level := h.level
  scope := h.scope
  ends := by
    intro z hz u
    have hgrows := (grows_setDesc hstop D).next
    -- chains from old nodes end in old nodes
    have hold : ∀ u, Ends σ.next z u → (σ.setDesc ty D).next u = none := by
      intro u hu
      have hle : u ≤ saved.newId := le_of_ends hsaved hz ((h.ends z hz u).1 hu)
      rw [next_setDesc_of_ne (hle.trans_lt hty).ne]
      exact hu.eq_none
    rw [← h.ends z hz u]
    constructor
    · intro hu
      obtain ⟨w, hw, hwu⟩ := hu.exists_of_grows hgrows
      obtain rfl : u = w := (Ends.iff_eq (hold w hw)).1 hwu
      exact hw
    · intro hu; exact (hu.iff_of_grows hgrows).2 (.stop (hold u hu))
  desc := by
    intro z hz hz'
    have hne : z ≠ ty := (hz.trans_lt hty).ne
    simpa [Store.setDesc, hne] using h.desc z hz hz'
  kind := h.kind
  ext := h.ext
  commu := h.commu
  univar := h.univar
  name := h.name

variable {es : List (Change J P A)}

/-- Compressions are undone. -/
theorem Restored.expandAll (h : Restored saved σ)
    (hes : Compressed es σ) : Restored saved (Types.expandAll es σ) := by
  have hends : ∀ z ≤ saved.newId, ∀ u,
      Ends (Types.expandAll es σ).next z u ↔ Ends saved.store.next z u := fun z hz u =>
    (hes.sameEnds z u).symm.trans (h.ends z hz u)
  have hdesc : ∀ z ≤ saved.newId, saved.store.next z = none →
      (Types.expandAll es σ).desc z = saved.store.desc z := by
    intro z hz hstop
    have hstop' : σ.next z = none := ((h.ends z hz z).2 (.stop hstop)).eq_none
    exact (hes.desc_eq hstop').trans (h.desc z hz hstop)
  rw [expandAll_eq] at hends hdesc ⊢
  exact
    { level := h.level, scope := h.scope, ends := hends, desc := hdesc, kind := h.kind,
      ext := h.ext, commu := h.commu, univar := h.univar, name := h.name }

theorem Agree.undo (h : Agree saved σ σ') (c : Change J P A) :
    Agree saved (c.undo σ) (c.undo σ') := by
  obtain ⟨hdesc, hkind, hext, hcommu, hlevel, hscope, hunivar, hname⟩ := h
  cases c with
  | cLevel ty level =>
    refine ⟨hdesc, hkind, hext, hcommu, ?_, hscope, hunivar, hname⟩
    intro z hz
    by_cases heq : z = ty <;> simp [Change.undo, Store.setLevel, heq, hlevel z hz]
  | cScope ty scope =>
    refine ⟨hdesc, hkind, hext, hcommu, hlevel, ?_, hunivar, hname⟩
    intro z hz
    by_cases heq : z = ty
    · subst heq; simp [Change.undo, Store.setScope, hscope z hz]
    · simp [Change.undo, Store.setScope, heq, hscope z hz]
  | cUniv r v =>
    refine ⟨hdesc, hkind, hext, hcommu, hlevel, hscope, ?_, hname⟩
    intro r' hr'
    by_cases heq : r' = r <;> simp [Change.undo, Store.setUnivar, heq, hunivar r' hr']
  | cName r v =>
    refine ⟨hdesc, hkind, hext, hcommu, hlevel, hscope, hunivar, ?_⟩
    intro r' hr'
    by_cases heq : r' = r <;> simp [Change.undo, Store.setName, heq, hname r' hr']
  | _ =>
    refine ⟨?_, ?_, ?_, ?_, hlevel, hscope, hunivar, hname⟩ <;>
      simp [Change.undo, Store.setDesc, Store.setKind, Store.setExt, Store.setCommu, hdesc, hkind,
        hext, hcommu]

theorem Agree.rewind (h : Agree saved σ σ') (es : List (Change J P A)) :
    Agree saved (Types.rewind es σ) (Types.rewind es σ') := by
  induction es generalizing σ σ' with
  | nil => exact h
  | cons c es ih => exact ih (h.undo c)

/-! ## The memory of the log -/

variable {e r fuel : Nat} {m : Nat → Changes J P A}

/-- `rev_log` returns the entries and gives up all cells but the first. -/
theorem revLog_spec {m₁ : Nat → Changes J P A} (hm : Upward m) {n : Nat} (h : Path m n es e)
    (he : m e = .unchanged)
    (hm₁ : ∀ y, n < y → m₁ y = m y) :
    ∃ m₂, (∀ fuel accu, es.length < fuel →
        revLog fuel m₁ accu (m n) = .ok (es.reverse ++ accu, m₂)) ∧
      (∀ y, m₂ y = m₁ y ∨ m₂ y = .invalid) ∧ (∀ y ≤ n, m₂ y = m₁ y) ∧
      ∀ y fs, fs ≠ [] → Path m n fs y → m₂ y = .invalid := by
  induction h generalizing m₁ with
  | @nil n =>
    refine ⟨m₁, ?_, fun _ => .inl rfl, fun _ _ => rfl, ?_⟩
    · intro fuel accu hfuel
      obtain ⟨fuel, rfl⟩ := Nat.exists_eq_succ_of_ne_zero (Nat.ne_of_gt hfuel)
      simp [revLog, he]
    · intro y fs hfs hy; exact absurd (hy.eq_nil he).1 hfs
  | @cons n n' e c es hn h ih =>
    have hlt : n < n' := hm n c n' hn
    have hagree : ∀ y, n' < y → update m₁ n' .invalid y = m y := by
      intro y hy
      rw [update_of_ne hy.ne']
      exact hm₁ y (hlt.trans hy)
    obtain ⟨m₂, hrev, hor, hlow, hpath⟩ := ih he hagree
    have hn' : m₂ n' = .invalid := by simpa using hlow n' le_rfl
    refine ⟨m₂, ?_, ?_, ?_, ?_⟩
    · intro fuel accu hfuel
      obtain ⟨fuel, rfl⟩ := Nat.exists_eq_succ_of_ne_zero (Nat.ne_of_gt (Nat.zero_lt_of_lt hfuel))
      rw [hn, revLog, hm₁ n' hlt, hrev fuel (c :: accu) (by simpa using hfuel)]
      simp
    · intro y
      by_cases hy : y = n'
      · exact .inr (hy ▸ hn')
      · simpa [hy] using hor y
    · intro y hy; rw [hlow y (hy.trans hlt.le), update_of_ne (hy.trans_lt hlt).ne]
    intro y fs hfs hy
    cases hy with
    | nil => exact absurd rfl hfs
    | @cons _ n'' _ c' fs hc hy =>
      rw [hn] at hc
      cases hc
      by_cases hnil : fs = []
      · subst hnil
        cases hy
        exact hn'
      · exact hpath y fs hnil hy

/-! ### `backtrack` -/

/-- What `backtrack` leaves. -/
structure Rewound (snap : Snapshot) (es : List (Change J P A)) (s s' : State J P A) : Prop where
  store : s'.store = Types.rewind es.reverse s.store
  trail : s'.trail = snap.changes
  fresh : s'.fresh = s.fresh
  newId : s'.newId = s.newId
  names : s'.names = s.names
  univars : s'.univars = s.univars
  opened : s'.changes snap.changes = .unchanged
  below : ∀ y < snap.changes, s'.changes y = s.changes y
  invalid : ∀ y, s.changes y = .invalid → s'.changes y = .invalid
  above : ∀ y fs, fs ≠ [] → Path s.changes snap.changes fs y → s'.changes y = .invalid
  upward : Upward s'.changes

variable {snap : Snapshot}

theorem backtrack_spec (hs : s.Wf)
    (h : Path s.changes snap.changes es s.trail) (hknown : ∀ c ∈ es, c.Known s.newId) :
    ∃ s', (∀ fuel, es.length < fuel → backtrack fuel snap s = .ok s') ∧ Rewound snap es s s' := by
  cases hr : s.changes snap.changes with
  | unchanged =>
    obtain ⟨rfl, htrail⟩ := h.eq_nil hr
    refine ⟨{ s with lastSnapshot := snap.old }, fun fuel _ => by rw [backtrack, hr], rfl, htrail,
      rfl, rfl, rfl, rfl, hr, fun _ _ => rfl, fun _ hy => hy, ?_, hs.upward⟩
    intro y fs hfs hy
    exact absurd (hy.eq_nil hr).1 hfs
  | invalid => exact absurd hr (h.ne_invalid hs.trail)
  | change c n =>
    obtain ⟨m, hlog, hor, hlow, habove⟩ :=
      revLog_spec hs.upward h hs.trail fun y _ => (rfl : s.changes y = s.changes y)
    have hother : ∀ y, y ≠ snap.changes →
        update m snap.changes .unchanged y = m y := fun y hy =>
      update_of_ne hy _ _
    refine ⟨{ s with
      store := Types.rewind es.reverse s.store
      changes := update m snap.changes .unchanged
      lastSnapshot := snap.old
      trail := snap.changes }, fun fuel hfuel => ?_, rfl, rfl, rfl, rfl, rfl, rfl,
      update_self _ _ _, ?_, ?_, ?_, ?_⟩
    · rw [backtrack, hr]
      dsimp only
      rw [← hr, hlog fuel [] hfuel, List.append_nil]
      dsimp only [bind, Except.bind]
      rw [foldlM_undoChange (n := s.newId) fun c hc => hknown c (by simpa using hc)]
      rfl
    · intro y hy
      rw [← hlow y hy.le]
      exact hother y hy.ne
    · intro y hy
      have hne : y ≠ snap.changes := by
        intro heq
        rw [heq, hr] at hy
        cases hy
      refine (hother y hne).trans ?_
      rcases hor y with heq | heq
      · exact heq.trans hy
      · exact heq
    · intro y fs hfs hy; refine (hother y (hy.lt hs.upward hfs).ne').trans (habove y fs hfs hy)
    intro y c' n' hy
    by_cases hne : y = snap.changes
    · simp [hne] at hy
    rcases hor y with heq | heq
    · exact hs.upward y c' n' (heq ▸ (hother y hne) ▸ hy)
    · have hinv := (hother y hne).trans heq; exact absurd (hinv.symm.trans hy) (by simp)

/-! ### `undo_compress` -/

/-- What the loop of `undo_compress` leaves when it takes back the
compressions among `es`, the first first, from the cell `r` on. Stretches of
the log that end in a cell with `X` lose their compressions. -/
structure Struck (X : Nat → Prop) (r : Nat) (es : List (Change J P A)) (s s' : State J P A) :
    Prop where
  store : s'.store = Types.expandAll es.reverse s.store
  trail : s'.trail = s.trail
  fresh : s'.fresh = s.fresh
  newId : s'.newId = s.newId
  names : s'.names = s.names
  univars : s'.univars = s.univars
  below : ∀ y < r, s'.changes y = s.changes y
  ends : ∀ y, (∀ c n, s.changes y ≠ .change c n) → s'.changes y = s.changes y
  upward : Upward s'.changes
  path : ∀ y fs x gs, Path s.changes r fs y → Path s.changes y gs x → X x →
    Path s'.changes y (kept gs) x

variable {X : Nat → Prop}

theorem struck_nil (hs : Upward s.changes)
    (hr : s.changes r = .unchanged) : Struck X r [] s s where
  store := rfl
  trail := rfl
  fresh := rfl
  newId := rfl
  names := rfl
  univars := rfl
  below := fun _ _ => rfl
  ends := fun _ _ => rfl
  upward := hs
  path := by
    intro y fs x gs hy hgs _
    obtain ⟨-, rfl⟩ := hy.eq_nil hr
    obtain ⟨rfl, rfl⟩ := hgs.eq_nil hr
    exact .nil

variable [DecidableEq J] [DecidableEq P]

theorem revCompressLog_spec (hs : Upward s.changes) (h : Path s.changes r es e)
    (he : s.changes e = .unchanged)
    (hcomp : Compressed es.reverse s.store)
    (hX : ∀ r' fs c n, Path s.changes r fs r' → s.changes r' = .change c n →
      c.isCompress = true → ¬ X n) :
    ∃ rs, (∀ fuel l, es.length < fuel → revCompressLog s.changes fuel l r = .ok (rs ++ l)) ∧
      Struck X r es s (rs.foldl undoCompressAt s) := by
  induction es generalizing r with
  | nil =>
    cases h
    refine ⟨[], ?_, struck_nil hs he⟩
    intro fuel l hfuel
    obtain ⟨fuel, rfl⟩ := Nat.exists_eq_succ_of_ne_zero (Nat.ne_of_gt hfuel)
    simp [revCompressLog, he]
  | cons c es ih =>
    have hsucc : ∀ fuel, (c :: es).length < fuel → ∃ n, fuel = n + 1 ∧ es.length < n := by
      intro fuel hfuel
      exact ⟨fuel - 1, by omega, by simp at hfuel; omega⟩
    obtain ⟨n, hr, hn⟩ : ∃ n, s.changes r = .change c n ∧ Path s.changes n es e := by
      cases h with
      | cons hr h => exact ⟨_, hr, h⟩
    have hlt : r < n := hs r c n hr
    rw [List.reverse_cons, compressed_append] at hcomp
    have hX' : ∀ r' fs c' n', Path s.changes n fs r' → s.changes r' = .change c' n' →
        c'.isCompress = true → ¬ X n' := fun r' fs c' n' hpath =>
          hX r' (c :: fs) c' n' (.cons hr hpath)
    -- a path from `r` that is not empty goes through `n`
    have htail : ∀ {fs y}, Path s.changes r fs y → fs = [] ∧ y = r ∨
        ∃ fs', fs = c :: fs' ∧ Path s.changes n fs' y := by
      intro fs y hpath
      cases hpath with
      | nil => exact .inl ⟨rfl, rfl⟩
      | cons hr' hpath =>
        rw [hr] at hr'
        cases hr'
        exact .inr ⟨_, rfl, hpath⟩
    cases hc : c.isCompress with
    | false =>
      obtain ⟨rs, hlog, hstruck⟩ := ih hn hcomp.1 hX'
      have hr₁ : (rs.foldl undoCompressAt s).changes r = .change c n :=
        (hstruck.below r hlt).trans hr
      refine ⟨rs, ?_, ?_, hstruck.trail, hstruck.fresh, hstruck.newId, hstruck.names,
        hstruck.univars, fun y hy => hstruck.below y (hy.trans hlt), hstruck.ends,
        hstruck.upward, ?_⟩
      · intro fuel l hfuel
        obtain ⟨fuel, rfl, hfuel'⟩ := hsucc fuel hfuel
        rw [← hlog fuel l hfuel', revCompressLog, hr]
        cases c <;> first | rfl | simp [Change.isCompress] at hc
      · rw [hstruck.store, List.reverse_cons, expandAll_append, expandAll_cons,
          expand_of_not_isCompress hc, expandAll_nil]
      intro y fs x gs hy hgs hx
      rcases htail hy with ⟨rfl, rfl⟩ | ⟨fs', rfl, hy'⟩
      · rcases htail hgs with ⟨rfl, rfl⟩ | ⟨gs', rfl, hgs'⟩
        · exact .nil
        · rw [kept_cons hc]; exact .cons hr₁ (hstruck.path n [] x gs' .nil hgs' hx)
      · exact hstruck.path y fs' x gs hy' hgs hx
    | true =>
      obtain ⟨t, old, d, rfl⟩ : ∃ t old d, c = .cCompress t old d := by
        cases c with
        | cCompress t old d => exact ⟨t, old, d, rfl⟩
        | _ => simp [Change.isCompress] at hc
      obtain ⟨rs, hlog, hstruck⟩ := ih hn hcomp.1 hX'
      generalize hs₁ : rs.foldl undoCompressAt s = s₁ at hstruck
      have hr₁ : s₁.changes r = .change (.cCompress t old d) n :=
        (hstruck.below r hlt).trans hr
      have hdesc : s₁.store.desc t = d := by
        rw [hstruck.store]
        exact hcomp.2.1.1
      have hfold : (rs ++ [r]).foldl undoCompressAt s =
          { s₁ with
            store := s₁.store.setDesc t old
            changes := update s₁.changes r (s₁.changes n) } := by
        rw [List.foldl_append, hs₁]
        simp [undoCompressAt, hr₁, hdesc]
      have hne : ∀ y, n ≤ y → y ≠ r := fun y hy => (hlt.trans_le hy).ne'
      refine ⟨rs ++ [r], ?_, ?_⟩
      · intro fuel l hfuel
        obtain ⟨fuel, rfl, hfuel'⟩ := hsucc fuel hfuel
        rw [List.append_assoc, List.singleton_append, ← hlog fuel (r :: l) hfuel',
          revCompressLog, hr]
      rw [hfold]
      refine ⟨?_, hstruck.trail, hstruck.fresh, hstruck.newId, hstruck.names, hstruck.univars,
        ?_, ?_, ?_, ?_⟩
      · rw [List.reverse_cons, expandAll_append, ← hstruck.store]; rfl
      · intro y hy
        rw [← hstruck.below y (hy.trans hlt)]
        exact update_of_ne hy.ne _ _
      · intro y hy
        have hyr : y ≠ r := by
          intro heq
          subst heq
          exact hy _ _ hr
        rw [← hstruck.ends y hy]
        exact update_of_ne hyr _ _
      · intro y c' n' hy
        dsimp only at hy
        by_cases hyr : y = r
        · rw [hyr, update_self] at hy; exact hyr ▸ hlt.trans (hstruck.upward n c' n' hy)
        · rw [update_of_ne hyr] at hy; exact hstruck.upward y c' n' hy
      intro y fs x gs hy hgs hx
      -- paths above `r` are not touched
      have hframe : ∀ {z fs w}, n ≤ z → Path s₁.changes z fs w →
          Path (update s₁.changes r (s₁.changes n)) z fs w := by
        intro z fs w hz hpath
        exact hpath.congr hstruck.upward fun y hy _ =>
          update_of_ne (hne y (hz.trans hy)) _ _
      rcases htail hy with ⟨rfl, rfl⟩ | ⟨fs', rfl, hy'⟩
      · rcases htail hgs with ⟨rfl, rfl⟩ | ⟨gs', rfl, hgs'⟩
        · exact .nil
        rw [kept_cons_of_isCompress hc]
        have hpath := hstruck.path n [] x gs' .nil hgs' hx
        generalize kept gs' = ks at hpath
        cases hpath with
        | nil => exact absurd hx (hX y [] _ n .nil hr hc)
        | @cons _ n' _ c' _ hn' hpath =>
          refine .cons ?_ (hframe (hstruck.upward n c' n' hn').le hpath)
          dsimp only
          rw [update_self]
          exact hn'
      · exact hframe (hy'.le hs) (hstruck.path y fs' x gs hy' hgs hx)

theorem undoCompress_spec (hs : s.Wf) (h : Path s.changes snap.changes es s.trail)
    (hcomp : Compressed es.reverse s.store)
    (hX : ∀ r' fs c n, Path s.changes snap.changes fs r' → s.changes r' = .change c n →
      c.isCompress = true → ¬ X n) :
    ∃ s', (∀ fuel, es.length < fuel → undoCompress fuel snap s = .ok s') ∧
      Struck X snap.changes es s s' := by
  cases hr : s.changes snap.changes with
  | unchanged =>
    obtain ⟨rfl, -⟩ := h.eq_nil hr
    exact ⟨s, fun fuel _ => by simp [undoCompress, hr], struck_nil hs.upward hr⟩
  | invalid => exact absurd hr (h.ne_invalid hs.trail)
  | change c n =>
    obtain ⟨rs, hlog, hstruck⟩ := revCompressLog_spec hs.upward h hs.trail hcomp hX
    refine ⟨_, fun fuel hfuel => ?_, hstruck⟩
    rw [undoCompress, hr]
    rw [hlog fuel [] hfuel, List.append_nil]
    rfl

/-! ### Fuel -/

omit [DecidableEq J] [DecidableEq P] in
theorem revLog_fuel {accu : List (Change J P A)}
    {c : Changes J P A} {r} (h : revLog fuel m accu c = .ok r) (k : Nat) :
    revLog (fuel + k) m accu c = .ok r := by
  induction fuel generalizing m accu c with
  | zero => simp [revLog] at h
  | succ fuel ih =>
    rw [Nat.add_right_comm]
    cases c with
    | change ch next => simp only [revLog] at h ⊢; exact ih h
    | unchanged => simpa [revLog] using h
    | invalid => simp [revLog] at h

omit [DecidableEq J] [DecidableEq P] in
theorem backtrack_fuel (h : backtrack fuel snap s = .ok s')
    (k : Nat) : backtrack (fuel + k) snap s = .ok s' := by
  unfold backtrack at h ⊢
  cases hr : s.changes snap.changes with
  | change ch next =>
    simp only [hr] at h ⊢
    obtain ⟨r, hlog, h⟩ := bind_eq_ok.1 h
    rw [revLog_fuel hlog k]
    exact h
  | unchanged => simpa [hr] using h
  | invalid => simp [hr] at h

omit [DecidableEq J] [DecidableEq P] in
theorem revCompressLog_fuel {l rs : List Nat} (h : revCompressLog m fuel l r = .ok rs) (k : Nat) :
    revCompressLog m (fuel + k) l r = .ok rs := by
  induction fuel generalizing l r with
  | zero => simp [revCompressLog] at h
  | succ fuel ih =>
    rw [Nat.add_right_comm]
    simp only [revCompressLog] at h ⊢
    cases hr : m r with
    | change c next => cases c <;> simp only [hr] at h ⊢ <;> exact ih h
    | unchanged | invalid => simpa [hr] using h

theorem undoCompress_fuel (h : undoCompress fuel snap s = .ok s')
    (k : Nat) : undoCompress (fuel + k) snap s = .ok s' := by
  unfold undoCompress at h ⊢
  cases hr : s.changes snap.changes with
  | change ch next =>
    simp only [hr] at h ⊢
    obtain ⟨rs, hlog, h⟩ := bind_eq_ok.1 h
    rw [revCompressLog_fuel hlog k]
    exact h
  | unchanged | invalid => simpa [hr] using h

end Oxcaml.Typing.Types
